import LiteServer.Http.ConfigPatch
import LiteServer.Lib.Lookup

/-!
# Redaction of a model's config

`GET /config` masks secrets by `redact_tree`, and a PATCH that sends the mask back is refused by
`redaction_placeholder_path`. The two are separate walks over two trees. What makes them agree is
that both decide what to do with a member from its path, its key and the kind of its value, and that
two trees with a common position have the same kinds on the way to it.

Merging does not bring a mask into a masked place either: where the patch has an object the merged
tree has one, and elsewhere it has the patch's value as it is.

A `Redaction` is what `redact_tree` records about a place. The source keeps the path only.

## Main results

* `redacted_echo_refused` — a patch that agrees with the redacted tree at a recorded position is
  refused, an accepted patch leaves no mask in a masked place, and the redacted tree has masks in
  all of them
-/

namespace LiteServer.Http

/-! ### Positions -/

/-- A step into a tree. -/
inductive TreeStep where
  | key (k : String)
  | index (i : ℕ)
  deriving DecidableEq

/-- The value at a position. -/
def atPos : Json → List TreeStep → Option Json
  | v, [] => some v
  | .object members, .key k :: rest => (members.lookup k).bind fun v => atPos v rest
  | .array items, .index i :: rest => items[i]?.bind fun v => atPos v rest
  | _, _ :: _ => none

/-- Induction over trees. -/
theorem json_induction {P : Json → Prop}
    (scalar : ∀ v, v.asObject = none → v.asArray = none → P v)
    (array : ∀ items, (∀ v ∈ items, P v) → P (.array items))
    (object : ∀ members, (∀ m ∈ members, P m.2) → P (.object members)) : ∀ v, P v
  | .null => scalar _ rfl rfl
  | .bool _ => scalar _ rfl rfl
  | .number _ => scalar _ rfl rfl
  | .string _ => scalar _ rfl rfl
  | .array items => array items fun v _ => json_induction scalar array object v
  | .object members => object members fun m _ => json_induction scalar array object m.2
termination_by v => sizeOf v
decreasing_by
  · rename_i hv
    have := List.sizeOf_lt_of_mem hv
    simp only [Json.array.sizeOf_spec]
    omega
  · rename_i hm
    have := List.sizeOf_lt_of_mem hm
    have hpair : sizeOf m = 1 + sizeOf m.1 + sizeOf m.2 := by cases m; rfl
    simp only [Json.object.sizeOf_spec]
    omega

/-! ### Masking -/

/-- The path of a member. -/
def childPath (path key : String) : String := if path = "" then key else path ++ "." ++ key

/-- The path of an array's element. -/
def itemPath (path : String) (i : ℕ) : String := s!"{path}[{i}]"

/-- The key of a table of headers. -/
def isHeaders (key : String) : Bool := key.toList.map Char.toLower = "headers".toList

/-- A value or the items of a list, hidden. -/
def redactSubtree : Json → Json
  | .array items => .array (items.map fun _ => .string redacted)
  | _ => .string redacted

/-- There is nothing to hide. -/
def isEmptyValue : Json → Bool
  | .null => true
  | .object members => members.isEmpty
  | .array items => items.isEmpty
  | _ => false

/-- A recorded place: the path that is pushed, where it is, the values that were masked and what was
put there. -/
structure Redaction where
  path : String
  pos : List TreeStep
  masked : List Json
  put : Json

/-- The place, seen from one level above. -/
def Redaction.under (step : TreeStep) (d : Redaction) : Redaction := { d with pos := step :: d.pos }

/-- One turn of the loop over an object's members; `inner` is what the recursive call gives. -/
def redactMember (subtrees : List String) (path key : String) (child : Json)
    (inner : Json × List Redaction) : Json × List Redaction :=
  if subtrees.contains (childPath path key) && !isEmptyValue child then
    (redactSubtree child, [⟨childPath path key, [.key key], [child], redactSubtree child⟩])
  else if isSecretLeaf key && child.asObject.isNone && child.asArray.isNone then
    (.string redacted, [⟨childPath path key, [.key key], [child], .string redacted⟩])
  else
    match isHeaders key, child.asObject with
    | true, some headers =>
      let put : Json := .object (headers.map fun h => (h.1, .string redacted))
      (put, if headers.isEmpty then []
        else [⟨childPath path key, [.key key], headers.map Prod.snd, put⟩])
    | _, _ => (inner.1, inner.2.map (Redaction.under (.key key)))

mutual

/-- `redact_tree`: the tree as it is left, and the recorded places. -/
def redactTree (subtrees : List String) (path : String) : Json → Json × List Redaction
  | .object members =>
    let (members', places) := redactMembers subtrees path members
    (.object members', places)
  | .array items =>
    let (items', places) := redactItems subtrees path 0 items
    (.array items', places)
  | v => (v, [])

/-- The members, with the places that were hidden. -/
def redactMembers (subtrees : List String) (path : String) :
    List (String × Json) → List (String × Json) × List Redaction
  | [] => ([], [])
  | (key, child) :: rest =>
    let (v, places) := redactMember subtrees path key child
      (redactTree subtrees (childPath path key) child)
    let (rest', places') := redactMembers subtrees path rest
    ((key, v) :: rest', places ++ places')

/-- The items, with the places that were hidden. -/
def redactItems (subtrees : List String) (path : String) (i : ℕ) :
    List Json → List Json × List Redaction
  | [] => ([], [])
  | item :: rest =>
    let (v, places) := redactTree subtrees (itemPath path i) item
    let (rest', places') := redactItems subtrees path (i + 1) rest
    (v :: rest', places.map (Redaction.under (.index i)) ++ places')

end

/-- What a member becomes. -/
abbrev maskMember (subtrees : List String) (path : String) (m : String × Json) :
    Json × List Redaction :=
  redactMember subtrees path m.1 m.2 (redactTree subtrees (childPath path m.1) m.2)

theorem redactMembers_eq (subtrees : List String) (path : String) (members : List (String × Json)) :
    redactMembers subtrees path members =
      (members.map fun m => (m.1, (maskMember subtrees path m).1),
        members.flatMap fun m => (maskMember subtrees path m).2) := by
  induction members with
  | nil => rfl
  | cons m members ih => simp [redactMembers, ih]

theorem redactItems_fst (subtrees : List String) (path : String) (i : ℕ) (items : List Json) :
    (redactItems subtrees path i items).1 =
      items.mapIdx fun j v => (redactTree subtrees (itemPath path (i + j)) v).1 := by
  induction items generalizing i with
  | nil => rfl
  | cons item items ih =>
    simp [redactItems, ih, List.mapIdx_cons, Nat.add_assoc, Nat.add_comm 1]

theorem mem_redactItems (subtrees : List String) (path : String) (i : ℕ) (items : List Json)
    {d : Redaction} :
    d ∈ (redactItems subtrees path i items).2 ↔
      ∃ j v, items[j]? = some v ∧ ∃ d' ∈ (redactTree subtrees (itemPath path (i + j)) v).2,
        d = d'.under (.index (i + j)) := by
  induction items generalizing i with
  | nil => simp [redactItems]
  | cons item items ih =>
    simp only [redactItems, List.mem_append, List.mem_map, ih]
    constructor
    · rintro (⟨d', hd', rfl⟩ | ⟨j, v, hv, d', hd', rfl⟩)
      · exact ⟨0, item, rfl, d', hd', rfl⟩
      · have hij : i + (j + 1) = i + 1 + j := by omega
        exact ⟨j + 1, v, by simpa using hv, d', by rwa [hij], by rw [hij]⟩
    · rintro ⟨j, v, hv, d', hd', rfl⟩
      cases j with
      | zero =>
        obtain rfl : item = v := by simpa using hv
        exact .inl ⟨d', hd', rfl⟩
      | succ j =>
        have hij : i + (j + 1) = i + 1 + j := by omega
        exact .inr ⟨j, v, by simpa using hv, d', by rwa [← hij], by rw [hij]⟩

theorem redactTree_of_empty {subtrees : List String} {path : String} {v : Json}
    (h : isEmptyValue v) : (redactTree subtrees path v).2 = [] := by
  cases v with
  | object members =>
    obtain rfl : members = [] := List.isEmpty_iff.mp h
    rfl
  | array items =>
    obtain rfl : items = [] := List.isEmpty_iff.mp h
    rfl
  | _ => rfl

/-- A child with records is not empty. -/
theorem contains_eq_false {subtrees : List String} {path text : String} {v : Json} {d : Redaction}
    (h : subtrees.contains text → isEmptyValue v) (hd : d ∈ (redactTree subtrees path v).2) :
    subtrees.contains text = false := by
  by_contra hcontains
  rw [redactTree_of_empty (h (by simpa using hcontains))] at hd
  simp at hd

/-- What becomes of a member, and its records. -/
inductive MemberCase (subtrees : List String) (path key : String) :
    Json → Json × List Redaction → Prop
  | subtree {child : Json} : subtrees.contains (childPath path key) →
      MemberCase subtrees path key child
        (redactSubtree child, [⟨childPath path key, [.key key], [child], redactSubtree child⟩])
  | leaf {child : Json} : isSecretLeaf key → child.asObject = none → child.asArray = none →
      MemberCase subtrees path key child
        (.string redacted, [⟨childPath path key, [.key key], [child], .string redacted⟩])
  | headers {headers : List (String × Json)} {put : Json} :
      put = .object (headers.map fun h => (h.1, .string redacted)) → isHeaders key →
      (headers ≠ [] → subtrees.contains (childPath path key) = false) →
      MemberCase subtrees path key (.object headers)
        (put, if headers.isEmpty then []
          else [⟨childPath path key, [.key key], headers.map Prod.snd, put⟩])
  | inner {child : Json} : (subtrees.contains (childPath path key) → isEmptyValue child) →
      (child.asObject = none → child.asArray = none → isSecretLeaf key = false) →
      (child.asObject.isSome → isHeaders key = false) →
      MemberCase subtrees path key child
        ((redactTree subtrees (childPath path key) child).1,
          (redactTree subtrees (childPath path key) child).2.map (Redaction.under (.key key)))

theorem maskMember_cases (subtrees : List String) (path : String) (m : String × Json) :
    MemberCase subtrees path m.1 m.2 (maskMember subtrees path m) := by
  obtain ⟨key, child⟩ := m
  simp only [maskMember, redactMember]
  split_ifs with hsubtree hleaf
  · exact .subtree (Bool.and_eq_true_iff.mp hsubtree).1
  · simp only [Bool.and_eq_true, Option.isNone_iff_eq_none] at hleaf
    exact .leaf hleaf.1.1 hleaf.1.2 hleaf.2
  · have hempty : subtrees.contains (childPath path key) → isEmptyValue child := by
      intro hcontains
      by_contra hne
      exact hsubtree (by rw [hcontains, Bool.true_and]; simpa using hne)
    split
    next headers hheaders hchild =>
      obtain rfl : child = .object headers := by
        cases child <;> simp_all [Json.asObject]
      refine .headers rfl hheaders fun hne => ?_
      by_contra hcontains
      exact hne (List.isEmpty_iff.mp (hempty (by simpa using hcontains)))
    next hnot =>
      refine .inner hempty (fun hobject harray => ?_) fun hsome => ?_
      · simpa [hobject, harray] using hleaf
      · obtain ⟨headers, hchild⟩ := Option.isSome_iff_exists.mp hsome
        cases hkey : isHeaders key with
        | false => rfl
        | true => exact (hnot headers hkey hchild).elim

theorem mem_redactTree_object {subtrees : List String} {path : String}
    {members : List (String × Json)} {d : Redaction} :
    d ∈ (redactTree subtrees path (.object members)).2 ↔
      ∃ m ∈ members, d ∈ (maskMember subtrees path m).2 := by
  simp only [redactTree, redactMembers_eq, List.mem_flatMap]

theorem mem_redactTree_array {subtrees : List String} {path : String} {items : List Json}
    {d : Redaction} :
    d ∈ (redactTree subtrees path (.array items)).2 ↔
      ∃ i v, items[i]? = some v ∧ ∃ d' ∈ (redactTree subtrees (itemPath path i) v).2,
        d = d'.under (.index i) := by
  simp only [redactTree, mem_redactItems, Nat.zero_add]

theorem redactTree_scalar {subtrees : List String} {path : String} {v : Json}
    (hobject : v.asObject = none) (harray : v.asArray = none) :
    redactTree subtrees path v = (v, []) := by
  cases v <;> simp_all [redactTree, Json.asObject, Json.asArray]

/-! ### Detection -/

/-- What one turn of the loop over a patch's members finds. -/
def memberHit (path key : String) (child : Json) : Option String :=
  if redactedSubtrees.contains (childPath path key) ||
      (isSecretLeaf key && child.asObject.isNone && child.asArray.isNone) then
    if holdsPlaceholder child then some (childPath path key) else none
  else if isHeaders key && child.asObject.isSome then
    ((child.asObject.getD []).find? fun m => holdsPlaceholder m.2).map fun m =>
      childPath path key ++ "." ++ m.1
  else redactionPlaceholderPath child (childPath path key)

section Hit

variable {path key : String} {child : Json}

theorem memberHit_masked (h : (redactedSubtrees.contains (childPath path key) ||
    (isSecretLeaf key && child.asObject.isNone && child.asArray.isNone)) = true) :
    memberHit path key child = none ↔ holdsPlaceholder child = false := by
  rw [memberHit, if_pos h]
  simp

theorem memberHit_headers {headers : List (String × Json)}
    (h : redactedSubtrees.contains (childPath path key) = false) (hkey : isHeaders key) :
    memberHit path key (.object headers) = none ↔ ∀ m ∈ headers, holdsPlaceholder m.2 = false := by
  rw [memberHit, h, hkey]
  simp [Json.asObject]

theorem memberHit_inner (h : redactedSubtrees.contains (childPath path key) = false)
    (hleaf : child.asObject = none → child.asArray = none → isSecretLeaf key = false)
    (hkey : child.asObject.isSome → isHeaders key = false) :
    memberHit path key child = redactionPlaceholderPath child (childPath path key) := by
  have hfirst : (redactedSubtrees.contains (childPath path key) ||
      (isSecretLeaf key && child.asObject.isNone && child.asArray.isNone)) = false := by
    rw [h, Bool.false_or]
    by_contra hne
    simp only [Bool.not_eq_false, Bool.and_eq_true, Option.isNone_iff_eq_none] at hne
    simp [hleaf hne.1.2 hne.2] at hne
  have hsecond : (isHeaders key && child.asObject.isSome) = false := by
    cases hsome : child.asObject.isSome with
    | false => simp
    | true => simp [hkey hsome]
  rw [memberHit, hfirst, hsecond]
  rfl

end Hit

theorem placeholderInMembers_eq_none {members : List (String × Json)} {path : String} :
    placeholderInMembers members path = none ↔
      ∀ m ∈ members, memberHit path m.1 m.2 = none := by
  induction members with
  | nil => simp [placeholderInMembers]
  | cons m members ih =>
    have hcons : placeholderInMembers (m :: members) path =
        (memberHit path m.1 m.2).orElse fun _ => placeholderInMembers members path := rfl
    rw [hcons, List.forall_mem_cons, ← ih]
    cases memberHit path m.1 m.2 <;> simp

theorem placeholderInItems_eq_none {items : List Json} {path : String} {i : ℕ} :
    placeholderInItems items path i = none ↔
      ∀ j v, items[j]? = some v → redactionPlaceholderPath v (itemPath path (i + j)) = none := by
  induction items generalizing i with
  | nil => simp [placeholderInItems]
  | cons item items ih =>
    have hcons : placeholderInItems (item :: items) path i = none ↔
        redactionPlaceholderPath item (itemPath path i) = none ∧
          placeholderInItems items path (i + 1) = none := by
      rw [placeholderInItems, itemPath]
      cases redactionPlaceholderPath item s!"{path}[{i}]" <;> simp
    rw [hcons, ih]
    constructor
    · rintro ⟨hitem, hrest⟩ j v hv
      cases j with
      | zero =>
        obtain rfl : item = v := by simpa using hv
        exact hitem
      | succ j =>
        have hij : i + (j + 1) = i + 1 + j := by omega
        rw [hij]
        exact hrest j v (by simpa using hv)
    · intro h
      refine ⟨h 0 item rfl, fun j v hv => ?_⟩
      have hij : i + 1 + j = i + (j + 1) := by omega
      rw [hij]
      exact h (j + 1) v (by simpa using hv)

theorem anyPlaceholder_eq (items : List Json) :
    anyPlaceholder items = items.any holdsPlaceholder := by
  induction items with
  | nil => rfl
  | cons item items ih => simp [anyPlaceholder, ih]

/-- The placeholder occurs nowhere in a tree. -/
inductive Unmasked : Json → Prop
  | scalar {v : Json} : v.asObject = none → v.asArray = none → v ≠ .string redacted → Unmasked v
  | array {items : List Json} : (∀ v ∈ items, Unmasked v) → Unmasked (.array items)
  | object {members : List (String × Json)} : (∀ m ∈ members, Unmasked m.2) →
      Unmasked (.object members)

theorem Unmasked.holds {v : Json} (h : Unmasked v) : holdsPlaceholder v = false := by
  induction h with
  | scalar hobject harray hne =>
    rename_i v
    cases v <;> simp_all [holdsPlaceholder, Json.asObject, Json.asArray]
  | array _ ih =>
    rw [holdsPlaceholder, anyPlaceholder_eq]
    simpa using ih
  | object => rfl

theorem Unmasked.path {v : Json} (h : Unmasked v) (path : String) :
    redactionPlaceholderPath v path = none := by
  induction h generalizing path with
  | @scalar v hobject harray _ =>
    cases v <;> simp_all [redactionPlaceholderPath, Json.asObject, Json.asArray]
  | array _ ih =>
    exact placeholderInItems_eq_none.mpr fun j v hv => ih v (List.mem_of_getElem? hv) _
  | object hmembers ih =>
    refine placeholderInMembers_eq_none.mpr fun m hm => ?_
    by_cases hleaf : (redactedSubtrees.contains (childPath path m.1) ||
        (isSecretLeaf m.1 && m.2.asObject.isNone && m.2.asArray.isNone)) = true
    · exact (memberHit_masked hleaf).mpr (hmembers m hm).holds
    · rw [memberHit, if_neg hleaf]
      split_ifs with hheaders
      · rw [Option.map_eq_none_iff, List.find?_eq_none]
        obtain ⟨key, child⟩ := m
        cases hmembers _ hm with
        | scalar hobject => simp [hobject]
        | array => simp [Json.asObject]
        | object hall => exact fun h hh => by simp [(hall h hh).holds]
      · exact ih m hm _

/-- What is masked in a tree without hits does not hold the placeholder. -/
theorem holds_of_masked (t : Json) : ∀ path, redactionPlaceholderPath t path = none →
    ∀ d ∈ (redactTree redactedSubtrees path t).2, ∀ x ∈ d.masked, holdsPlaceholder x = false := by
  induction t using json_induction with
  | scalar v hobject harray =>
    intro path _ d hd
    simp [redactTree_scalar hobject harray] at hd
  | array items ih =>
    intro path hnone d hd x hx
    obtain ⟨i, v, hv, d', hd', rfl⟩ := mem_redactTree_array.mp hd
    have hitem := placeholderInItems_eq_none.mp hnone i v hv
    rw [Nat.zero_add] at hitem
    exact ih v (List.mem_of_getElem? hv) _ hitem d' hd' x hx
  | object members ih =>
    intro path hnone d hd x hx
    obtain ⟨m, hm, hd⟩ := mem_redactTree_object.mp hd
    have hhit := placeholderInMembers_eq_none.mp hnone m hm
    obtain ⟨key, child⟩ := m
    have hcases := maskMember_cases redactedSubtrees path (key, child)
    generalize maskMember redactedSubtrees path (key, child) = out at hd hcases
    cases hcases with
    | subtree hcontains =>
      obtain rfl := List.mem_singleton.mp hd
      obtain rfl := List.mem_singleton.mp hx
      exact (memberHit_masked (by simp only [hcontains, Bool.true_or])).mp hhit
    | leaf hleaf hobject harray =>
      obtain rfl := List.mem_singleton.mp hd
      obtain rfl := List.mem_singleton.mp hx
      exact (memberHit_masked (by simp [hleaf, hobject, harray])).mp hhit
    | @headers headers put hput hkey hcontains =>
      by_cases hempty : headers = []
      · simp [hempty] at hd
      · obtain rfl := List.mem_singleton.mp (by simpa [hempty] using hd)
        obtain ⟨h, hh, rfl⟩ := List.mem_map.mp hx
        exact (memberHit_headers (hcontains hempty) hkey).mp hhit h hh
    | inner hempty hleaf hkey =>
      obtain ⟨d', hd', rfl⟩ := List.mem_map.mp hd
      rw [memberHit_inner (contains_eq_false hempty hd') hleaf hkey] at hhit
      exact ih _ hm _ hhit d' hd' x hx

/-! ### Merging -/

theorem mem_setMember {key : String} {v : Json} {t : List (String × Json)} {m : String × Json}
    (h : m ∈ setMember key v t) : m = (key, v) ∨ m ∈ t := by
  induction t with
  | nil => exact .inl (List.mem_singleton.mp h)
  | cons e t ih =>
    obtain ⟨k, w⟩ := e
    simp only [setMember] at h
    split_ifs at h
    · exact (List.mem_cons.mp h).imp_right (List.mem_cons_of_mem _)
    · exact List.mem_cons.mp h
    · obtain rfl | h := List.mem_cons.mp h
      · exact .inr List.mem_cons_self
      · exact (ih h).imp_right (List.mem_cons_of_mem _)

/-- What holds of all members of the target, and of what the patch makes of a member of which it
holds, or of nothing, holds of all members of the merged object. -/
theorem mergeMembers_forall {Q : String × Json → Prop} {members : List (String × Json)}
    (hpatch : ∀ m ∈ members, ∀ old, old = .null ∨ Q (m.1, old) → Q (m.1, mergePatch old m.2)) :
    ∀ {t : List (String × Json)}, (∀ m ∈ t, Q m) → ∀ m ∈ mergeMembers t members, Q m := by
  induction members with
  | nil => exact fun ht => ht
  | cons e members ih =>
    obtain ⟨key, value⟩ := e
    intro t ht
    refine ih (fun m hm => hpatch m (List.mem_cons_of_mem _ hm)) fun m hm => ?_
    split_ifs at hm
    · exact ht m (List.mem_of_mem_filter hm)
    · obtain rfl | hm := mem_setMember hm
      · refine hpatch (key, value) List.mem_cons_self _ ?_
        cases hold : t.lookup key with
        | none => exact .inl rfl
        | some old => exact .inr (ht (key, old) (mem_of_lookup hold))
      · exact ht m hm

/-- A member after the merge, in the three ways the walk looks at it. -/
theorem merge_memberHit {path key : String} {old value : Json}
    (ih : ∀ path c, redactionPlaceholderPath c path = none →
      redactionPlaceholderPath value path = none →
      redactionPlaceholderPath (mergePatch c value) path = none)
    (hold : old = .null ∨ memberHit path key old = none)
    (hvalue : memberHit path key value = none) :
    memberHit path key (mergePatch old value) = none := by
  cases value with
  | object members =>
    cases hcontains : redactedSubtrees.contains (childPath path key) with
    | true => exact (memberHit_masked (by simp only [hcontains, Bool.true_or])).mpr rfl
    | false =>
      cases hkey : isHeaders key with
      | true =>
        refine (memberHit_headers hcontains hkey).mpr ?_
        refine mergeMembers_forall (Q := fun m => holdsPlaceholder m.2 = false) ?_ ?_
        · intro m hm old _
          have hm' := (memberHit_headers hcontains hkey).mp hvalue m hm
          cases hcase : m.2 with
          | object => rfl
          | _ => simpa [mergePatch, hcase] using hm'
        · cases old with
          | object headers =>
            exact (memberHit_headers hcontains hkey).mp (hold.resolve_left (by simp))
          | _ => simp [Json.asObject]
      | false =>
        have hinner : ∀ {ms : List (String × Json)}, memberHit path key (.object ms) =
            redactionPlaceholderPath (.object ms) (childPath path key) :=
          memberHit_inner hcontains (by simp [Json.asObject]) fun _ => hkey
        rw [hinner] at hvalue
        rw [mergePatch, hinner, ← mergePatch]
        cases old with
        | object ms => exact ih _ _ (by rw [← hinner]; exact hold.resolve_left (by simp)) hvalue
        | _ => exact ih _ .null rfl hvalue
  | _ => exact hvalue

/-- A patch without hits, merged into a tree without hits, gives none. -/
theorem merge_no_hit (p : Json) : ∀ path c, redactionPlaceholderPath c path = none →
    redactionPlaceholderPath p path = none →
    redactionPlaceholderPath (mergePatch c p) path = none := by
  induction p using json_induction with
  | scalar v hobject harray =>
    intro path c _ hp
    cases v <;> simp_all [mergePatch, Json.asObject]
  | array items _ => exact fun path c _ hp => by simpa [mergePatch] using hp
  | object members ih =>
    intro path c hc hp
    refine placeholderInMembers_eq_none.mpr ?_
    refine mergeMembers_forall (Q := fun m => memberHit path m.1 m.2 = none) ?_ ?_
    · exact fun m hm old hold => merge_memberHit (ih m hm) hold
        (placeholderInMembers_eq_none.mp hp m hm)
    · cases c with
      | object t => exact placeholderInMembers_eq_none.mp hc
      | _ => simp [Json.asObject]

/-! ### Echoes -/

/-- The patch's value `y` agrees with the value `x` of the redacted tree: it is the placeholder, or
a list or a map with the placeholder in it. -/
inductive Echo : Json → Json → Prop
  | value : Echo (.string redacted) (.string redacted)
  | list {items items' : List Json} :
      .string redacted ∈ items' → Echo (.array items) (.array items')
  | map {members members' : List (String × Json)} {k : String} :
      (k, .string redacted) ∈ members' → Echo (.object members) (.object members')

/-- The patch has the kind of value the position calls for. -/
theorem kind_of_atPos {p y : Json} {pos : List TreeStep} {step : TreeStep}
    (h : atPos p (step :: pos) = some y) :
    (∃ k members v, step = .key k ∧ p = .object members ∧ (k, v) ∈ members ∧ atPos v pos = some y) ∨
    ∃ i items v, step = .index i ∧ p = .array items ∧ items[i]? = some v ∧
      atPos v pos = some y := by
  cases step with
  | key k =>
    cases p with
    | object members =>
      obtain ⟨v, hv, hy⟩ := Option.bind_eq_some_iff.mp h
      exact .inl ⟨k, members, v, rfl, rfl, mem_of_lookup hv, hy⟩
    | _ => cases h
  | index i =>
    cases p with
    | array items =>
      obtain ⟨v, hv, hy⟩ := Option.bind_eq_some_iff.mp h
      exact .inr ⟨i, items, v, rfl, rfl, hv, hy⟩
    | _ => cases h

/-- Where the records of a tree are. -/
theorem pos_of_mem {subtrees : List String} {path : String} {c : Json} {d : Redaction}
    (h : d ∈ (redactTree subtrees path c).2) :
    (∃ k rest, d.pos = .key k :: rest ∧ c.asObject.isSome) ∨
      ∃ i rest, d.pos = .index i :: rest ∧ c.asArray.isSome := by
  cases c with
  | object members =>
    obtain ⟨⟨key, child⟩, -, hd⟩ := mem_redactTree_object.mp h
    refine .inl ⟨key, ?_⟩
    have hcases := maskMember_cases subtrees path (key, child)
    generalize maskMember subtrees path (key, child) = out at hd hcases
    cases hcases with
    | subtree =>
      obtain rfl := List.mem_singleton.mp hd
      exact ⟨[], rfl, rfl⟩
    | leaf =>
      obtain rfl := List.mem_singleton.mp hd
      exact ⟨[], rfl, rfl⟩
    | headers =>
      split_ifs at hd
      · simp at hd
      · obtain rfl := List.mem_singleton.mp hd
        exact ⟨[], rfl, rfl⟩
    | inner =>
      obtain ⟨d', -, rfl⟩ := List.mem_map.mp hd
      exact ⟨d'.pos, rfl, rfl⟩
  | array items =>
    obtain ⟨i, v, -, d', -, rfl⟩ := mem_redactTree_array.mp h
    exact .inr ⟨i, d'.pos, rfl, rfl⟩
  | _ => simp [redactTree] at h

theorem hit_of_atPos {p y : Json} {path key : String} {rest : List TreeStep}
    (hnone : redactionPlaceholderPath p path = none) (h : atPos p (.key key :: rest) = some y) :
    ∃ v, memberHit path key v = none ∧ atPos v rest = some y := by
  obtain ⟨_, members, v, hstep, rfl, hv, hy⟩ | ⟨_, _, _, hstep, -⟩ := kind_of_atPos h
  · obtain rfl := TreeStep.key.inj hstep
    exact ⟨v, placeholderInMembers_eq_none.mp hnone _ hv, hy⟩
  · cases hstep

theorem Echo.holds {x y : Json} (h : Echo x y) (hx : x.asObject = none) :
    holdsPlaceholder y = true := by
  cases h with
  | value => simp [holdsPlaceholder]
  | list hmem =>
    rw [holdsPlaceholder, anyPlaceholder_eq, List.any_eq_true]
    exact ⟨_, hmem, by simp [holdsPlaceholder]⟩
  | map => cases hx

/-- **An echo is found.** -/
theorem echo_found (c : Json) : ∀ path p, redactionPlaceholderPath p path = none →
    ∀ d ∈ (redactTree redactedSubtrees path c).2, ∀ y, atPos p d.pos = some y → ¬ Echo d.put y := by
  induction c using json_induction with
  | scalar v hobject harray =>
    intro path p _ d hd
    simp [redactTree_scalar hobject harray] at hd
  | array items ih =>
    intro path p hnone d hd y hy
    obtain ⟨i, v, hv, d', hd', rfl⟩ := mem_redactTree_array.mp hd
    obtain ⟨_, _, _, hstep, -⟩ | ⟨_, items', v', hstep, rfl, hv', hy'⟩ := kind_of_atPos hy
    · cases hstep
    · obtain rfl := TreeStep.index.inj hstep
      have hitem := placeholderInItems_eq_none.mp hnone _ v' hv'
      rw [Nat.zero_add] at hitem
      exact ih v (List.mem_of_getElem? hv) _ v' hitem d' hd' y hy'
  | object members ih =>
    intro path p hnone d hd y hy
    obtain ⟨m, hm, hd⟩ := mem_redactTree_object.mp hd
    obtain ⟨key, child⟩ := m
    have hcases := maskMember_cases redactedSubtrees path (key, child)
    generalize maskMember redactedSubtrees path (key, child) = out at hd hcases
    cases hcases with
    | subtree hcontains =>
      obtain rfl := List.mem_singleton.mp hd
      obtain ⟨v, hhit, hv⟩ := hit_of_atPos hnone hy
      obtain rfl := Option.some.inj hv
      rw [memberHit_masked (by simp only [hcontains, Bool.true_or])] at hhit
      intro hecho
      rw [hecho.holds (by cases child <;> rfl)] at hhit
      cases hhit
    | leaf hleaf hobject harray =>
      obtain rfl := List.mem_singleton.mp hd
      obtain ⟨v, hhit, hv⟩ := hit_of_atPos hnone hy
      obtain rfl := Option.some.inj hv
      rintro ⟨⟩
      rw [memberHit_masked (by simp [hleaf, Json.asObject, Json.asArray])] at hhit
      simp [holdsPlaceholder] at hhit
    | @headers headers put hput hkey hcontains =>
      by_cases hempty : headers = []
      · simp [hempty] at hd
      · obtain rfl := List.mem_singleton.mp (by simpa [hempty] using hd)
        obtain ⟨v, hhit, hv⟩ := hit_of_atPos hnone hy
        obtain rfl := Option.some.inj hv
        subst hput
        rintro ⟨⟩
        rename_i hmem
        have hfree := (memberHit_headers (hcontains hempty) hkey).mp hhit _ hmem
        simp [holdsPlaceholder] at hfree
    | inner hempty hleaf hkey =>
      obtain ⟨d', hd', rfl⟩ := List.mem_map.mp hd
      obtain ⟨v, hhit, hv⟩ := hit_of_atPos hnone hy
      -- the patch has the kind of value here that the tree has
      have hkind : (v.asObject.isSome → child.asObject.isSome) ∧
          (v.asObject = none → v.asArray ≠ none) := by
        obtain ⟨k, rest, hpos, hobject⟩ | ⟨i, rest, hpos, -⟩ := pos_of_mem hd'
        · rw [hpos] at hv
          obtain ⟨_, _, _, -, rfl, -⟩ | ⟨_, _, _, hstep, -⟩ := kind_of_atPos hv
          · exact ⟨fun _ => hobject, by simp [Json.asObject]⟩
          · cases hstep
        · rw [hpos] at hv
          obtain ⟨_, _, _, hstep, -⟩ | ⟨_, _, _, -, rfl, -⟩ := kind_of_atPos hv
          · cases hstep
          · exact ⟨by simp [Json.asObject], by simp [Json.asArray]⟩
      rw [memberHit_inner (contains_eq_false hempty hd') (fun ho ha => absurd ha (hkind.2 ho))
        fun hsome => hkey (hkind.1 hsome)] at hhit
      exact ih _ hm _ v hhit d' hd' y hv

/-! ### What the redacted tree shows -/

/-- Every object has distinct keys, as the maps of `serde_json` do. -/
inductive DistinctKeys : Json → Prop
  | scalar {v : Json} : v.asObject = none → v.asArray = none → DistinctKeys v
  | array {items : List Json} : (∀ v ∈ items, DistinctKeys v) → DistinctKeys (.array items)
  | object {members : List (String × Json)} : (members.map Prod.fst).Nodup →
      (∀ m ∈ members, DistinctKeys m.2) → DistinctKeys (.object members)

/-- What was put at a place is there in the redacted tree. -/
theorem atPos_put {subtrees : List String} {c : Json} (h : DistinctKeys c) :
    ∀ path, ∀ d ∈ (redactTree subtrees path c).2,
      atPos (redactTree subtrees path c).1 d.pos = some d.put := by
  induction h with
  | scalar hobject harray =>
    intro path d hd
    simp [redactTree_scalar hobject harray] at hd
  | @array items _ ih =>
    intro path d hd
    obtain ⟨i, v, hv, d', hd', rfl⟩ := mem_redactTree_array.mp hd
    have hat := ih v (List.mem_of_getElem? hv) _ d' hd'
    simpa [redactTree, redactItems_fst, Redaction.under, atPos, hv] using hat
  | @object members hnodup hall ih =>
    intro path d hd
    obtain ⟨⟨key, child⟩, hm, hd⟩ := mem_redactTree_object.mp hd
    have hlookup : ((redactMembers subtrees path members).1).lookup key =
        some (maskMember subtrees path (key, child)).1 := by
      rw [redactMembers_eq]
      exact lookup_of_mem (by simpa [Function.comp_def] using hnodup)
        (List.mem_map.mpr ⟨(key, child), hm, rfl⟩)
    have hat : ∀ rest, atPos (redactTree subtrees path (.object members)).1 (.key key :: rest) =
        atPos (maskMember subtrees path (key, child)).1 rest := by
      intro rest
      simp [redactTree, atPos, hlookup]
    have hcases := maskMember_cases subtrees path (key, child)
    generalize maskMember subtrees path (key, child) = out at hd hcases hat
    cases hcases with
    | subtree =>
      obtain rfl := List.mem_singleton.mp hd
      rw [hat, atPos]
    | leaf =>
      obtain rfl := List.mem_singleton.mp hd
      rw [hat, atPos]
    | headers =>
      split_ifs at hd
      · simp at hd
      · obtain rfl := List.mem_singleton.mp hd
        rw [hat, atPos]
    | inner =>
      obtain ⟨d', hd', rfl⟩ := List.mem_map.mp hd
      exact (hat d'.pos).trans (ih _ hm _ d' hd')

/-- The members of an object are masked as they should be. -/
def MembersMasked (members : List (String × Json)) : Prop :=
  ∀ m ∈ members,
    (isSecretLeaf m.1 → m.2.asObject = none → m.2.asArray = none → m.2 = .string redacted) ∧
    (isHeaders m.1 → ∀ headers, m.2 = .object headers → ∀ h ∈ headers, h.2 = .string redacted)

theorem membersMasked_of_all {members : List (String × Json)}
    (h : ∀ m ∈ members, m.2 = .string redacted) : MembersMasked members := by
  refine fun m hm => ⟨fun _ _ _ => h m hm, fun _ headers hheaders => ?_⟩
  rw [h m hm] at hheaders
  cases hheaders

theorem atPos_scalar {v y : Json} (hobject : v.asObject = none) (harray : v.asArray = none)
    {pos : List TreeStep} (h : atPos v pos = some y) : y = v := by
  cases pos with
  | nil => exact (Option.some.inj h).symm
  | cons step pos =>
    obtain ⟨_, _, _, -, rfl, -⟩ | ⟨_, _, _, -, rfl, -⟩ := kind_of_atPos h
    · cases hobject
    · cases harray

/-- There are no objects below a masked value. -/
theorem atPos_redactSubtree {v : Json} {pos : List TreeStep} {members : List (String × Json)} :
    atPos (redactSubtree v) pos ≠ some (.object members) := by
  intro h
  cases v with
  | array items =>
    cases pos with
    | nil => cases h
    | cons step pos =>
      obtain ⟨_, _, _, -, hnot, -⟩ | ⟨i, _, x, -, harray, hx, hat⟩ := kind_of_atPos h
      · cases hnot
      · obtain rfl := Json.array.inj harray
        obtain ⟨_, -, rfl⟩ := List.mem_map.mp (List.mem_of_getElem? hx)
        cases atPos_scalar rfl rfl hat
  | _ => cases atPos_scalar (v := .string redacted) rfl rfl h

theorem redactTree_asObject (subtrees : List String) (path : String) (c : Json) :
    ((redactTree subtrees path c).1.asObject.isSome = c.asObject.isSome) ∧
      (redactTree subtrees path c).1.asArray.isSome = c.asArray.isSome := by
  cases c <;> exact ⟨rfl, rfl⟩

/-- Every object of the redacted tree is masked as it should be. -/
theorem membersMasked_redactTree (subtrees : List String) (c : Json) : ∀ path pos members,
    atPos (redactTree subtrees path c).1 pos = some (.object members) → MembersMasked members := by
  induction c using json_induction with
  | scalar v hobject harray =>
    intro path pos members h
    rw [redactTree_scalar hobject harray] at h
    obtain rfl := atPos_scalar hobject harray h
    cases hobject
  | array items ih =>
    intro path pos members h
    cases pos with
    | nil => cases h
    | cons step pos =>
      obtain ⟨_, _, _, -, hnot, -⟩ | ⟨i, _, x, -, harray, hx, hat⟩ := kind_of_atPos h
      · cases hnot
      · obtain rfl := Json.array.inj harray
        rw [redactItems_fst, List.getElem?_mapIdx] at hx
        obtain ⟨v, hv, rfl⟩ := Option.map_eq_some_iff.mp hx
        exact ih v (List.mem_of_getElem? hv) _ _ _ hat
  | object ms ih =>
    intro path pos members h
    cases pos with
    | nil =>
      obtain rfl : (redactMembers subtrees path ms).1 = members :=
        Json.object.inj (Option.some.inj h)
      rw [redactMembers_eq]
      intro m hm
      obtain ⟨⟨key, child⟩, -, rfl⟩ := List.mem_map.mp hm
      have hcases := maskMember_cases subtrees path (key, child)
      generalize maskMember subtrees path (key, child) = out at hcases
      cases hcases with
      | subtree =>
        refine ⟨fun _ _ harray => ?_, fun _ headers hheaders => ?_⟩
        · cases child <;> first | rfl | cases harray
        · cases child <;> cases hheaders
      | leaf => exact ⟨fun _ _ _ => rfl, fun _ headers hheaders => by cases hheaders⟩
      | headers hput =>
        subst hput
        refine ⟨fun _ hobject _ => (by cases hobject), fun _ headers hheaders h hh => ?_⟩
        obtain rfl := Json.object.inj hheaders
        obtain ⟨_, -, rfl⟩ := List.mem_map.mp hh
        rfl
      | inner hempty hleaf hkey =>
        obtain ⟨hobject, harray⟩ := redactTree_asObject subtrees (childPath path key) child
        refine ⟨fun hsecret ho ha => ?_, fun hheaders headers heq => ?_⟩
        · have hnot := hleaf (by simpa [ho] using hobject.symm) (by simpa [ha] using harray.symm)
          simp [hsecret] at hnot
        · dsimp only at heq
          have hnot := hkey (by rw [← hobject, heq]; rfl)
          simp [hheaders] at hnot
    | cons step pos =>
      obtain ⟨k, _, v, -, hobject, hv, hat⟩ | ⟨_, _, _, -, hnot, -⟩ := kind_of_atPos h
      · obtain rfl := Json.object.inj hobject
        rw [redactMembers_eq] at hv
        obtain ⟨⟨key, child⟩, hm, heq⟩ := List.mem_map.mp hv
        obtain ⟨rfl, rfl⟩ := Prod.mk.inj heq
        have hcases := maskMember_cases subtrees path (key, child)
        generalize maskMember subtrees path (key, child) = out at hcases hat
        cases hcases with
        | subtree => exact absurd hat atPos_redactSubtree
        | leaf => cases atPos_scalar rfl rfl hat
        | headers hput =>
          subst hput
          cases pos with
          | nil =>
            obtain rfl := Json.object.inj (Option.some.inj hat)
            refine membersMasked_of_all fun m hm => ?_
            obtain ⟨_, -, rfl⟩ := List.mem_map.mp hm
            rfl
          | cons step pos =>
            obtain ⟨_, _, x, -, hmap, hx, hat'⟩ | ⟨_, _, _, -, hnot, -⟩ := kind_of_atPos hat
            · obtain rfl := Json.object.inj hmap
              obtain ⟨_, -, heq⟩ := List.mem_map.mp hx
              obtain ⟨-, rfl⟩ := Prod.mk.inj heq
              cases atPos_scalar rfl rfl hat'
            · cases hnot
        | inner => exact ih _ hm _ _ _ hat
      · cases hnot

/-- A key that says nothing about secrets leads on. -/
theorem atPos_redactTree_key {subtrees : List String} {path k : String} {c y : Json}
    {pos : List TreeStep} (h : atPos (redactTree subtrees path c).1 (.key k :: pos) = some y) :
    ∃ child v, MemberCase subtrees path k child v ∧ atPos v.1 pos = some y := by
  obtain ⟨_, _, v, hstep, hobject, hv, hat⟩ | ⟨_, _, _, hstep, -⟩ := kind_of_atPos h
  · obtain rfl := TreeStep.key.inj hstep
    cases c with
    | object members =>
      obtain rfl := Json.object.inj hobject
      rw [redactMembers_eq] at hv
      obtain ⟨⟨key, child⟩, -, heq⟩ := List.mem_map.mp hv
      obtain ⟨rfl, rfl⟩ := Prod.mk.inj heq
      exact ⟨child, _, maskMember_cases subtrees path (key, child), hat⟩
    | _ => cases hobject
  · cases hstep

theorem atPos_redactTree_inner {subtrees : List String} {path k : String} {c y : Json}
    {pos : List TreeStep} (h : atPos (redactTree subtrees path c).1 (.key k :: pos) = some y)
    (hcontains : subtrees.contains (childPath path k) = false) (hleaf : isSecretLeaf k = false)
    (hkey : isHeaders k = false) :
    ∃ child, atPos (redactTree subtrees (childPath path k) child).1 pos = some y := by
  obtain ⟨child, v, hcase, hat⟩ := atPos_redactTree_key h
  cases hcase with
  | subtree hyes => exact absurd hyes (by rw [hcontains]; simp)
  | leaf hyes => simp [hleaf] at hyes
  | headers _ hyes => simp [hkey] at hyes
  | inner => exact ⟨child, hat⟩

/-- The API keys of a model are masked, each for itself. -/
theorem auth_keys_masked (c : Json) {items : List Json}
    (h : atPos (redactTree redactedSubtrees "" c).1
      [.key "policies", .key "auth", .key "keys"] = some (.array items)) :
    ∀ x ∈ items, x = .string redacted := by
  obtain ⟨policies, h⟩ := atPos_redactTree_inner h (by decide) (by decide) (by decide)
  obtain ⟨auth, h⟩ := atPos_redactTree_inner h (by decide) (by decide) (by decide)
  obtain ⟨keys, v, hcase, hat⟩ := atPos_redactTree_key h
  cases hcase with
  | subtree =>
    intro x hx
    cases keys with
    | array items' =>
      obtain rfl := Json.array.inj (Option.some.inj hat)
      obtain ⟨_, -, rfl⟩ := List.mem_map.mp hx
      rfl
    | _ => cases hat
  | leaf hyes => exact absurd hyes (by decide)
  | headers _ hyes => exact absurd hyes (by decide)
  | inner hempty =>
    have hnil := hempty (by decide)
    cases keys with
    | array items' =>
      obtain rfl : items' = [] := List.isEmpty_iff.mp hnil
      obtain rfl := Json.array.inj (Option.some.inj hat)
      simp
    | _ => cases hat

theorem prepareConfigPatch_of_path (L : ConfigLibs) (target : PatchTarget)
    (req : ConfigPatchRequest) (original : Option Bytes) {out : PrepareOutcome}
    (h : prepareConfigPatch L target req original = .ok out) :
    redactionPlaceholderPath req.patch "" = none := by
  simp only [prepareConfigPatch, Checks.bind_eq_ok] at h
  obtain ⟨-, -, -, -, h⟩ := h
  split at h
  · cases h
  next hnone => exact hnone

/-- **Echoes of a redacted config.** Let `r` be a config as `redact_tree` leaves it. A patch that
agrees with `r` at a recorded position has a hit and is refused. If the config has no placeholder in
it, merging an accepted patch leaves none in a masked place. And in `r` the values of secret keys,
of header maps and of `policies.auth.keys` are all placeholders. -/
theorem redacted_echo_refused (c : Json) (hc : DistinctKeys c) :
    (∀ L target req original, (∃ d ∈ (redactTree redactedSubtrees "" c).2, ∃ x y,
        atPos (redactTree redactedSubtrees "" c).1 d.pos = some x ∧
        atPos req.patch d.pos = some y ∧ Echo x y) →
      (redactionPlaceholderPath req.patch "").isSome ∧
        ∃ e, prepareConfigPatch L target req original = .error e) ∧
    (∀ L target req original out, Unmasked c → prepareConfigPatch L target req original = .ok out →
      ∀ d ∈ (redactTree redactedSubtrees "" (mergePatch c req.patch)).2, ∀ x ∈ d.masked,
        holdsPlaceholder x = false) ∧
    (∀ pos members, atPos (redactTree redactedSubtrees "" c).1 pos = some (.object members) →
      MembersMasked members) ∧
    ∀ items, atPos (redactTree redactedSubtrees "" c).1
      [.key "policies", .key "auth", .key "keys"] = some (.array items) →
      ∀ x ∈ items, x = .string redacted := by
  refine ⟨?_, ?_, membersMasked_redactTree _ c "", fun items => auth_keys_masked c⟩
  · rintro L target req original ⟨d, hd, x, y, hx, hy, hecho⟩
    rw [atPos_put hc "" d hd] at hx
    obtain rfl := Option.some.inj hx
    have hhit : redactionPlaceholderPath req.patch "" ≠ none :=
      fun hnone => echo_found c "" req.patch hnone d hd y hy hecho
    refine ⟨Option.isSome_iff_ne_none.mpr hhit, ?_⟩
    cases hprepare : prepareConfigPatch L target req original with
    | error e => exact ⟨e, rfl⟩
    | ok out => exact absurd (prepareConfigPatch_of_path L target req original hprepare) hhit
  · intro L target req original out hunmasked hprepare
    exact holds_of_masked _ "" (merge_no_hit req.patch "" c (hunmasked.path "")
      (prepareConfigPatch_of_path L target req original hprepare))

/-- A config with one secret. -/
def oneSecret : Json := .object [("api_key", .string "s")]

theorem redacted_echo_one : DistinctKeys oneSecret ∧
    MembersMasked [("api_key", .string redacted)] ∧
    ∀ L target original, ∃ e, prepareConfigPatch L target
      { patch := .object [("api_key", .string redacted)], mode := .writeOnly } original =
        .error e := by
  have hdistinct : DistinctKeys oneSecret :=
    .object (by simp) fun m hm => by
      obtain rfl := List.mem_singleton.mp hm
      exact .scalar rfl rfl
  obtain ⟨hrefused, -, hmasked, -⟩ := redacted_echo_refused oneSecret hdistinct
  refine ⟨hdistinct, hmasked [] _ rfl, fun L target original => ?_⟩
  exact (hrefused L target _ original ⟨_, List.mem_singleton_self _, _, _, rfl, rfl, .value⟩).2

end LiteServer.Http
