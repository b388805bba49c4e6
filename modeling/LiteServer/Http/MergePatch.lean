import LiteServer.Http.Redaction

/-!
# Merge patches

`merge_patch` changes its target in place: it puts a `null` under a key that the target does not
have and merges into that. RFC 7386 has a function from a target, which may be undefined, and a
patch to a result. The two are the same, and what the RFC promises follows from what a merge does to
one key (`lookup_mergeMembers`).

Only objects are merged. An array of the patch replaces what was there, with the `null`s of the
objects in it.

## Main results

* `mergePatch_laws` — the merge is the RFC's, merging twice is merging once, a path that the patch
  does not mention keeps its value, one that it sets to `null` is gone, and a `null` of the result
  is one of the target
* `null_in_array_left` — a `null` of the patch, in an object in an array, that is left
-/

namespace LiteServer.Http

/-! ### The RFC -/

mutual

/-- `MergePatch(Target, Patch)` of the RFC; a member that the target lacks is undefined. -/
def rfcMergePatch (target : Option Json) : Json → Json
  | .object members => .object (rfcMergeMembers ((target.bind Json.asObject).getD []) members)
  | patch => patch

/-- The members of a patch, one after the other. -/
def rfcMergeMembers (t : List (String × Json)) : List (String × Json) → List (String × Json)
  | [] => t
  | (name, value) :: rest =>
    rfcMergeMembers
      (if isNull value then if (t.lookup name).isSome then t.filter (·.1 ≠ name) else t
      else setMember name (rfcMergePatch (t.lookup name) value) t) rest

end

mutual

/-- The members of an object are in the order of their keys. -/
def InOrder : Json → Prop
  | .object members => (members.map Prod.fst).Pairwise (· < ·) ∧ MembersInOrder members
  | _ => True

/-- The members have keys in order, at every depth. -/
def MembersInOrder : List (String × Json) → Prop
  | [] => True
  | (_, v) :: members => InOrder v ∧ MembersInOrder members

end

/-- `serde_json::Value`. -/
structure Value where
  json : Json
  inOrder : InOrder json

/-- The value at a path of keys. -/
def valueAt : List String → Json → Option Json
  | [], v => some v
  | key :: path, v => (v.get key).bind (valueAt path)

/-- The patch says what is at the path, or merges into it. -/
def Mentions : Json → List String → Prop
  | .object _, [] => True
  | .object members, key :: path => ∃ v, members.lookup key = some v ∧ Mentions v path
  | _, _ => True

theorem membersInOrder_iff (members : List (String × Json)) :
    MembersInOrder members ↔ ∀ m ∈ members, InOrder m.2 := by
  induction members with
  | nil => simp [MembersInOrder]
  | cons m members ih =>
    obtain ⟨key, v⟩ := m
    simp [MembersInOrder, ih]

/-! ### One key -/

theorem lookup_setMember (key : String) (v : Json) (t : List (String × Json)) (k : String) :
    (setMember key v t).lookup k = if k = key then some v else t.lookup k := by
  induction t with
  | nil => rw [setMember, lookup_cons_ite]
  | cons e t ih =>
    obtain ⟨k', w⟩ := e
    rw [setMember]
    split
    · rename_i hsame
      rw [lookup_cons_ite, lookup_cons_ite, hsame]
      split <;> rfl
    split
    · rw [lookup_cons_ite]
    · rename_i hne _
      rw [lookup_cons_ite, lookup_cons_ite, ih]
      split_ifs with hk hkey
      · exact absurd (hk.symm.trans hkey) hne
      all_goals rfl

/-- What a patch makes of the member under a key. -/
def mergedAt (old : Option Json) : Option Json → Option Json
  | none => old
  | some value => if isNull value then none else some (mergePatch (old.getD .null) value)

/-- **What a merge does to one key.** -/
theorem lookup_mergeMembers {members : List (String × Json)}
    (hnodup : (members.map Prod.fst).Nodup) (t : List (String × Json)) (k : String) :
    (mergeMembers t members).lookup k = mergedAt (t.lookup k) (members.lookup k) := by
  induction members generalizing t with
  | nil => rfl
  | cons e members ih =>
    obtain ⟨key, value⟩ := e
    rw [List.map_cons, List.nodup_cons] at hnodup
    rw [mergeMembers, ih hnodup.2, lookup_cons_ite]
    by_cases hk : k = key
    · -- the key does not come again
      have hlast : members.lookup k = none := by
        rw [List.lookup_eq_none_iff]
        intro m hm
        simp only [bne_iff_ne, ne_eq]
        intro heq
        exact hnodup.1 (List.mem_map.mpr ⟨m, hm, heq.symm.trans hk⟩)
      rw [if_pos hk, hlast, hk]
      simp only [mergedAt]
      split
      · rw [lookup_filter_ne, if_pos rfl]
      · rw [lookup_setMember, if_pos rfl]
    · rw [if_neg hk]
      congr 1
      split
      · rw [lookup_filter_ne, if_neg hk]
      · rw [lookup_setMember, if_neg hk]

/-! ### The order of keys -/

theorem pairwise_setMember (key : String) (v : Json) {t : List (String × Json)}
    (h : (t.map Prod.fst).Pairwise (· < ·)) :
    ((setMember key v t).map Prod.fst).Pairwise (· < ·) := by
  induction t with
  | nil => simp [setMember]
  | cons e t ih =>
    obtain ⟨k, w⟩ := e
    have htail := List.pairwise_cons.mp h
    rw [setMember]
    split
    · rename_i hsame
      subst hsame
      exact h
    split
    · rename_i hless
      refine List.pairwise_cons.mpr ⟨fun k' hk' => ?_, h⟩
      rcases List.mem_cons.mp hk' with rfl | hk'
      · exact hless
      · exact String.lt_trans hless (htail.1 k' hk')
    · rename_i hne hless
      refine List.pairwise_cons.mpr ⟨fun k' hk' => ?_, ih htail.2⟩
      obtain ⟨m, hm, rfl⟩ := List.mem_map.mp hk'
      rcases mem_setMember hm with rfl | hm
      · by_contra hlarge
        exact hne (String.le_antisymm (String.not_lt.mp hless) (String.not_lt.mp hlarge))
      · exact htail.1 _ (List.mem_map_of_mem hm)

theorem pairwise_mergeMembers (members : List (String × Json)) {t : List (String × Json)}
    (h : (t.map Prod.fst).Pairwise (· < ·)) :
    ((mergeMembers t members).map Prod.fst).Pairwise (· < ·) := by
  induction members generalizing t with
  | nil => exact h
  | cons e members ih =>
    obtain ⟨key, value⟩ := e
    rw [mergeMembers]
    refine ih ?_
    split
    · exact h.sublist (List.filter_sublist.map _)
    · exact pairwise_setMember key _ h

theorem nodup_of_pairwise {t : List (String × Json)} (h : (t.map Prod.fst).Pairwise (· < ·)) :
    (t.map Prod.fst).Nodup := by
  refine List.Pairwise.imp ?_ h
  rintro a b hlt rfl
  exact String.lt_irrefl a hlt

/-- Objects with the same members are the same. -/
theorem eq_of_lookup {t t' : List (String × Json)} (h : (t.map Prod.fst).Pairwise (· < ·))
    (h' : (t'.map Prod.fst).Pairwise (· < ·)) (hlookup : ∀ k, t.lookup k = t'.lookup k) :
    t = t' := by
  have hkeys := nodup_of_pairwise h
  have hkeys' := nodup_of_pairwise h'
  have hperm : t.Perm t' := by
    refine (List.perm_ext_iff_of_nodup hkeys.of_map hkeys'.of_map).mpr fun m => ?_
    constructor
    · exact fun hm => mem_of_lookup (hlookup m.1 ▸ lookup_of_mem hkeys hm)
    · exact fun hm => mem_of_lookup ((hlookup m.1).symm ▸ lookup_of_mem hkeys' hm)
  have hasymm : ∀ a b, a ∈ t → b ∈ t' → a.1 < b.1 → b.1 < a.1 → a = b :=
    fun a b _ _ hlt hgt => absurd hgt (String.lt_asymm hlt)
  exact List.Perm.eq_of_pairwise hasymm (List.pairwise_map.mp h) (List.pairwise_map.mp h') hperm

/-! ### The laws -/

theorem filter_of_lookup {t : List (String × Json)} {name : String}
    (h : t.lookup name = none) : t.filter (·.1 ≠ name) = t := by
  refine List.filter_eq_self.mpr fun m hm => ?_
  have hne : name ≠ m.1 := by simpa using List.lookup_eq_none_iff.mp h m hm
  exact decide_eq_true hne.symm

theorem mergePatch_of_asObject {v : Json} (h : v.asObject = none) (target : Json) :
    mergePatch target v = v := by
  cases v with
  | object members => cases h
  | _ => rfl

/-- The `null` that is put under a missing key stands for the undefined target of the RFC. -/
theorem rfcMergePatch_eq (patch : Json) :
    ∀ target, rfcMergePatch target patch = mergePatch (target.getD .null) patch := by
  induction patch using json_induction with
  | scalar v hobject harray =>
    intro target
    rw [mergePatch_of_asObject hobject]
    cases v with
    | object members => cases hobject
    | _ => rfl
  | array items ih => exact fun _ => rfl
  | object members ih =>
    have hmembers : ∀ t, rfcMergeMembers t members = mergeMembers t members := by
      induction members with
      | nil => exact fun _ => rfl
      | cons e members ihm =>
        obtain ⟨name, value⟩ := e
        intro t
        rw [rfcMergeMembers, mergeMembers, ihm fun m hm => ih m (List.mem_cons_of_mem _ hm)]
        congr 1
        split
        · split
          · rfl
          · rename_i hnone
            rw [filter_of_lookup (Option.not_isSome_iff_eq_none.mp hnone)]
        · rw [ih (name, value) List.mem_cons_self]
    intro target
    rw [rfcMergePatch, mergePatch, hmembers]
    cases target <;> rfl

theorem InOrder.getD_lookup {t : List (String × Json)} (h : MembersInOrder t) (k : String) :
    InOrder ((t.lookup k).getD .null) := by
  cases hlookup : t.lookup k with
  | none => trivial
  | some v => exact (membersInOrder_iff t).mp h (k, v) (mem_of_lookup hlookup)

theorem InOrder.asObject {v : Json} (h : InOrder v) :
    ((v.asObject.getD []).map Prod.fst).Pairwise (· < ·) ∧ MembersInOrder (v.asObject.getD []) := by
  cases v with
  | object members => exact h
  | _ => exact ⟨.nil, trivial⟩

/-- Merging twice is merging once. -/
theorem mergePatch_idem (patch : Json) : InOrder patch → ∀ target, InOrder target →
    mergePatch (mergePatch target patch) patch = mergePatch target patch := by
  induction patch using json_induction with
  | scalar v hobject harray =>
    intro _ target _
    rw [mergePatch_of_asObject hobject, mergePatch_of_asObject hobject]
  | array items ih => exact fun _ _ _ => rfl
  | object members ih =>
    intro hpatch target htarget
    obtain ⟨hkeys, hmembers⟩ := hpatch
    obtain ⟨hsorted, hinner⟩ := htarget.asObject
    have hnodup := nodup_of_pairwise hkeys
    have hobject : ∀ t, mergePatch t (.object members) =
        .object (mergeMembers (t.asObject.getD []) members) := fun t => by rw [mergePatch]
    rw [hobject target, hobject]
    refine congrArg Json.object ?_
    change mergeMembers (mergeMembers _ members) members = _
    refine eq_of_lookup (pairwise_mergeMembers _ (pairwise_mergeMembers _ hsorted))
      (pairwise_mergeMembers _ hsorted) fun k => ?_
    rw [lookup_mergeMembers hnodup, lookup_mergeMembers hnodup]
    cases hvalue : members.lookup k with
    | none => rfl
    | some value =>
      cases hnull : isNull value with
      | true => simp [mergedAt, hnull]
      | false =>
        have hmem := mem_of_lookup hvalue
        have hvalueOrder := (membersInOrder_iff members).mp hmembers (k, value) hmem
        simp only [mergedAt, hnull, Bool.false_eq_true, if_false, Option.getD_some]
        rw [ih (k, value) hmem hvalueOrder _ (InOrder.getD_lookup hinner k)]

theorem get_mergePatch {members : List (String × Json)} (hnodup : (members.map Prod.fst).Nodup)
    (target : Json) (k : String) :
    (mergePatch target (.object members)).get k = mergedAt (target.get k) (members.lookup k) := by
  rw [mergePatch, Json.get, lookup_mergeMembers hnodup]
  cases target <;> rfl

theorem valueAt_of_asObject {v : Json} (h : v.asObject = none) {path : List String}
    (hpath : path ≠ []) : valueAt path v = none := by
  cases path with
  | nil => exact absurd rfl hpath
  | cons key path =>
    cases v with
    | object members => cases h
    | _ => rfl

theorem mentions_of_asObject {v : Json} (h : v.asObject = none) (path : List String) :
    Mentions v path := by
  cases v with
  | object members => cases h
  | _ => simp [Mentions]

/-- What the patch does not mention stays. -/
theorem valueAt_of_not_mentions (patch : Json) : InOrder patch → ∀ target path,
    ¬ Mentions patch path → valueAt path (mergePatch target patch) = valueAt path target := by
  induction patch using json_induction with
  | scalar v hobject harray =>
    exact fun _ _ path hnot => absurd (mentions_of_asObject hobject path) hnot
  | array items ih => exact fun _ _ path hnot => absurd (mentions_of_asObject rfl path) hnot
  | object members ih =>
    intro hpatch target path hnot
    cases path with
    | nil => exact absurd trivial hnot
    | cons key path =>
      rw [valueAt, valueAt, get_mergePatch (nodup_of_pairwise hpatch.1)]
      cases hvalue : members.lookup key with
      | none => rfl
      | some value =>
        have hmem := mem_of_lookup hvalue
        have hinner : ¬ Mentions value path := fun h => hnot ⟨value, hvalue, h⟩
        have hnull : isNull value = false := by
          cases value with
          | null => exact absurd (mentions_of_asObject rfl path) hinner
          | _ => rfl
        have horder := (membersInOrder_iff members).mp hpatch.2 (key, value) hmem
        rw [mergedAt, hnull, if_neg Bool.false_ne_true, Option.bind_some,
          ih (key, value) hmem horder _ path hinner]
        cases hold : target.get key with
        | some old => rfl
        | none =>
          -- an object that the patch makes is not at this path
          refine valueAt_of_asObject rfl ?_
          rintro rfl
          refine hinner ?_
          cases value with
          | object => trivial
          | _ => exact mentions_of_asObject rfl []

/-- What the patch sets to `null` is gone. -/
theorem valueAt_of_null (patch : Json) : InOrder patch → ∀ target path, path ≠ [] →
    valueAt path patch = some .null → valueAt path (mergePatch target patch) = none := by
  induction patch using json_induction with
  | scalar v hobject harray =>
    intro _ target path hpath hnull
    rw [valueAt_of_asObject hobject hpath] at hnull
    cases hnull
  | array items ih =>
    intro _ target path hpath hnull
    rw [valueAt_of_asObject rfl hpath] at hnull
    cases hnull
  | object members ih =>
    intro hpatch target path hpath hnull
    cases path with
    | nil => exact absurd rfl hpath
    | cons key path =>
      obtain ⟨value, hvalue, hnull⟩ := Option.bind_eq_some_iff.mp hnull
      replace hvalue : members.lookup key = some value := hvalue
      have hmem := mem_of_lookup hvalue
      rw [valueAt, get_mergePatch (nodup_of_pairwise hpatch.1), hvalue, mergedAt]
      cases hisNull : isNull value with
      | true => rfl
      | false =>
        rw [if_neg Bool.false_ne_true, Option.bind_some]
        have horder := (membersInOrder_iff members).mp hpatch.2 (key, value) hmem
        refine ih (key, value) hmem horder _ path ?_ hnull
        rintro rfl
        obtain rfl := Option.some.inj hnull
        cases hisNull

/-- A `null` of the result is not from the patch. -/
theorem not_mentions_of_null (patch : Json) : InOrder patch → ∀ target path,
    path ≠ [] ∨ isNull patch = false → valueAt path (mergePatch target patch) = some .null →
    ¬ Mentions patch path := by
  have hleaf : ∀ v : Json, v.asObject = none → ∀ target path, path ≠ [] ∨ isNull v = false →
      valueAt path (mergePatch target v) ≠ some .null := by
    intro v hobject target path hpath hnull
    rw [mergePatch_of_asObject hobject] at hnull
    cases path with
    | nil =>
      obtain rfl := Option.some.inj hnull
      simp [isNull] at hpath
    | cons key path =>
      rw [valueAt_of_asObject hobject (List.cons_ne_nil _ _)] at hnull
      cases hnull
  induction patch using json_induction with
  | scalar v hobject harray =>
    exact fun _ target path hpath hnull => absurd hnull (hleaf v hobject target path hpath)
  | array items ih =>
    exact fun _ target path hpath hnull => absurd hnull (hleaf _ rfl target path hpath)
  | object members ih =>
    intro hpatch target path hpath hnull
    cases path with
    | nil => cases Option.some.inj hnull
    | cons key path =>
      rintro ⟨value, hvalue, hmentions⟩
      have hmem := mem_of_lookup hvalue
      rw [valueAt, get_mergePatch (nodup_of_pairwise hpatch.1), hvalue, mergedAt] at hnull
      cases hisNull : isNull value with
      | true =>
        rw [hisNull, if_pos rfl] at hnull
        cases hnull
      | false =>
        rw [hisNull, if_neg Bool.false_ne_true, Option.bind_some] at hnull
        have horder := (membersInOrder_iff members).mp hpatch.2 (key, value) hmem
        exact ih (key, value) hmem horder _ path (.inr hisNull) hnull hmentions

/-- **Merge patches are the RFC's**, with what follows for applying one twice, for paths that it
does not mention, for those that it sets to `null`, and for `null`s in the result. -/
theorem mergePatch_laws (target patch : Value) :
    mergePatch target.json patch.json = rfcMergePatch (some target.json) patch.json ∧
      mergePatch (mergePatch target.json patch.json) patch.json =
        mergePatch target.json patch.json ∧
      (∀ path, ¬ Mentions patch.json path →
        valueAt path (mergePatch target.json patch.json) = valueAt path target.json) ∧
      (∀ path, path ≠ [] → valueAt path patch.json = some .null →
        valueAt path (mergePatch target.json patch.json) = none) ∧
      ∀ path, path ≠ [] ∨ isNull patch.json = false →
        valueAt path (mergePatch target.json patch.json) = some .null →
        ¬ Mentions patch.json path ∧ valueAt path target.json = some .null := by
  have hframe := valueAt_of_not_mentions patch.json patch.inOrder target.json
  refine ⟨(rfcMergePatch_eq patch.json (some target.json)).symm,
    mergePatch_idem _ patch.inOrder _ target.inOrder, hframe, valueAt_of_null _ patch.inOrder _,
    fun path hpath hnull => ?_⟩
  have hnot := not_mentions_of_null _ patch.inOrder _ path hpath hnull
  exact ⟨hnot, (hframe path hnot).symm.trans hnull⟩

mutual

/-- Some object in the value, be it in an array, has a `null`. -/
def hasNullMember : Json → Bool
  | .object members => anyNullMember members
  | .array items => anyNullItem items
  | _ => false

/-- A member is null, or has one inside. -/
def anyNullMember : List (String × Json) → Bool
  | [] => false
  | (_, v) :: members => isNull v || hasNullMember v || anyNullMember members

/-- An item has a null member inside. -/
def anyNullItem : List Json → Bool
  | [] => false
  | v :: items => hasNullMember v || anyNullItem items

end

/-- A patch that sets a member to an array of an object with a `null`, for an empty target. -/
theorem null_in_array_left :
    hasNullMember (.object []) = false ∧
      hasNullMember (mergePatch (.object [])
        (.object [("a", .array [.object [("b", .null)]])])) = true := by
  decide +kernel

end LiteServer.Http
