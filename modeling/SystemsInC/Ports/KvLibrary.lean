import SystemsInC.Ports.KvStore

/-!
# The key-value library on strings of any length

`kv_set` searches for the caller's key but stores a copy cut to `BUF_SIZE - 1`
bytes, so a longer key is never found again.  While the table has room each set of
such a key adds an entry, and on a full table it does nothing.
-/

namespace SystemsInC.Ports.KvLibrary

open SystemsInC.Verified
open SystemsInC.Verified.CString
open SystemsInC.Ports.KvStore

/-! ## Sequences of calls -/

/-- The table after calls of `kv_set`, the first one first. -/
def setAll (calls : List (Bytes × Bytes)) : Store :=
  calls.foldl (fun store call => kvSet store call.1 call.2) []

theorem setAll_concat (calls : List (Bytes × Bytes)) (call : Bytes × Bytes) :
    setAll (calls ++ [call]) = kvSet (setAll calls) call.1 call.2 := by
  rw [setAll, List.foldl_append]
  rfl

/-- No key has two entries after any of the calls, and a key that is set while the
table has room can be got, with its value cut to a field. -/
structure KeysUnique (calls : List (Bytes × Bytes)) : Prop where
  unique : ∀ past, past <+: calls → ((setAll past).map (fun e => cstr e.key)).Nodup
  found : ∀ past key value, past ++ [(key, value)] <+: calls →
    (setAll past).length < maxEntries →
      ∃ val, kvGet (setAll (past ++ [(key, value)])) key = some val ∧
        cstr val = (cstr value).take (bufSize - 1)

/-- A key that is set while the table has room fits into a field. -/
def KeysFitWhileRoom (calls : List (Bytes × Bytes)) : Prop :=
  ∀ past key value, past ++ [(key, value)] <+: calls →
    (setAll past).length < maxEntries → (cstr key).length ≤ bufSize - 1

theorem KeysFitWhileRoom.of_concat {calls : List (Bytes × Bytes)} {call : Bytes × Bytes}
    (h : KeysFitWhileRoom (calls ++ [call])) : KeysFitWhileRoom calls :=
  fun past key value hpast => h past key value (hpast.trans (List.prefix_append calls [call]))

/-! ## Keys that fit -/

theorem copyField_congr {a b : Bytes} (h : (cstr a).take (bufSize - 1) = cstr b) :
    copyField a = copyField b := by
  have hcopy : strncpy (strncpy a (bufSize - 1)) (bufSize - 1) = strncpy b (bufSize - 1) := by
    apply strncpy_congr
    rw [cstr_strncpy, h]
  rw [copyField, copyField, ← hcopy, strncpy_strncpy]

/-- The value as a field keeps it. -/
def fieldText (text : Bytes) : Bytes := (cstr text).take (bufSize - 1)

theorem fits_fieldText (text : Bytes) : Fits (fieldText text) :=
  ⟨fun _ hb => mem_cstr_ne_zero (List.mem_of_mem_take hb), List.length_take_le _ _⟩

theorem fits_cstr {key : Bytes} (h : (cstr key).length ≤ bufSize - 1) : Fits (cstr key) :=
  ⟨fun _ hb => mem_cstr_ne_zero hb, h⟩

theorem kvGet_cstr (store : Store) (key : Bytes) : kvGet store (cstr key) = kvGet store key := by
  simp only [kvGet, strcmpEq, cstr_cstr]

theorem kvSearch_cstr (store : Store) (key : Bytes) :
    kvSearch store (cstr key) = kvSearch store key := by
  simp only [kvSearch, strcmpEq, cstr_cstr]

/-- Only the strings matter, and of the value what a field keeps. -/
theorem kvSet_cstr (store : Store) {key : Bytes} (h : (cstr key).length ≤ bufSize - 1)
    (value : Bytes) : kvSet store (cstr key) (fieldText value) = kvSet store key value := by
  have hkey : copyField key = copyField (cstr key) :=
    copyField_congr (by rw [List.take_of_length_le h, cstr_cstr])
  have hvalue : copyField value = copyField (fieldText value) :=
    copyField_congr (fits_fieldText value).cstr_eq.symm
  rw [kvSet, kvSet, kvSearch_cstr]
  cases kvSearch store key with
  | some i => rw [kvCommit, kvCommit, hvalue]
  | none => rw [kvCommit, kvCommit, hkey, hvalue]

/-- A set of a key that fits, on a table of distinct keys. -/
theorem kvSet_represents_cstr {store : Store} {m : KvMap} {key : Bytes}
    (h : m.Represents (contents store)) (hkey : (cstr key).length ≤ bufSize - 1) (value : Bytes) :
    (m.set (cstr key) (fieldText value)).Represents (contents (kvSet store key value)) := by
  rw [← kvSet_cstr store hkey]
  exact kvSet_represents h (fits_cstr hkey) (fits_fieldText value)

/-- The key is found behind it, if the table had room. -/
theorem kvGet_kvSet {store : Store} {m : KvMap} {key : Bytes} (h : m.Represents (contents store))
    (hkey : (cstr key).length ≤ bufSize - 1) (value : Bytes) (hroom : store.length < maxEntries) :
    ∃ val, kvGet (kvSet store key value) key = some val ∧ cstr val = fieldText value := by
  have haccepts : m.Accepts (cstr key) := by
    rw [accepts_iff h (fits_cstr hkey)]
    exact .inr hroom
  have hget := kvGet_represents (kvSet_represents_cstr h hkey value) (fits_cstr hkey)
  rw [kvGet_cstr, BoundedMap.set_value haccepts, Function.update_self] at hget
  exact Option.map_eq_some_iff.mp hget

/-! ## Keys that do not fit -/

/-- The keys of the table have been cut. -/
def KeysCut (store : Store) : Prop := ∀ e ∈ store, (cstr e.key).length ≤ bufSize - 1

/-- A longer key is not found. -/
theorem KeysCut.kvSearch_eq_none {store : Store} (h : KeysCut store) {key : Bytes}
    (hkey : bufSize - 1 < (cstr key).length) : kvSearch store key = none := by
  rw [kvSearch, List.findIdx?_eq_none_iff]
  intro e he
  have hle := h e he
  have hne : ¬ strcmpEq e.key key := by
    intro heq
    rw [strcmpEq] at heq
    rw [heq] at hle
    omega
  exact decide_eq_false hne

theorem KeysCut.kvGet_eq_none {store : Store} (h : KeysCut store) {key : Bytes}
    (hkey : bufSize - 1 < (cstr key).length) : kvGet store key = none := by
  have hsearch := h.kvSearch_eq_none hkey
  rw [kvSearch, List.findIdx?_eq_none_iff] at hsearch
  rw [kvGet, Option.map_eq_none_iff, List.find?_eq_none]
  intro e he
  rw [hsearch e he]
  exact Bool.false_ne_true

theorem KeysCut.kvSet {store : Store} (h : KeysCut store) (key value : Bytes) :
    KeysCut (kvSet store key value) := by
  rw [KvStore.kvSet]
  cases kvSearch store key with
  | some i =>
      intro e he
      obtain ⟨j, hj⟩ := List.mem_iff_getElem?.mp he
      rw [kvCommit, List.getElem?_modify] at hj
      obtain ⟨old, hold, rfl⟩ := Option.map_eq_some_iff.mp hj
      have hle := h old (List.mem_of_getElem? hold)
      split
      · exact hle
      · exact hle
  | none =>
      rw [kvCommit]
      split
      · intro e he
        rcases List.mem_append.mp he with he | he
        · exact h e he
        · rw [List.mem_singleton.mp he]
          show (cstr (copyField key)).length ≤ bufSize - 1
          rw [copyField, cstr_strncpy_append_zero]
          exact List.length_take_le _ _
      · exact h

/-- A set of such a key adds an entry while there is room, and then does nothing. -/
theorem KeysCut.kvSet_long {store : Store} (h : KeysCut store) {key : Bytes}
    (hkey : bufSize - 1 < (cstr key).length) (value : Bytes) :
    KvStore.kvSet store key value =
      if store.length < maxEntries then
        store ++ [{ key := copyField key, value := copyField value }]
      else store := by
  rw [KvStore.kvSet, h.kvSearch_eq_none hkey, kvCommit]

theorem keysCut_setAll (calls : List (Bytes × Bytes)) : KeysCut (setAll calls) := by
  induction calls using List.reverseRecOn with
  | nil =>
      intro e he
      contradiction
  | append_singleton calls call ih =>
      rw [setAll_concat]
      exact ih.kvSet call.1 call.2

/-- Two sets of such a key on an empty table leave two entries for it. -/
theorem not_unique_of_long {key : Bytes} (hkey : bufSize - 1 < (cstr key).length)
    (value value' : Bytes) :
    ¬ ∀ past, past <+: [(key, value), (key, value')] →
      ((setAll past).map (fun e => cstr e.key)).Nodup := by
  intro h
  have hempty : KeysCut [] := by
    intro e he
    contradiction
  have hfirst := hempty.kvSet_long hkey value
  have hsecond := (hempty.kvSet key value).kvSet_long hkey value'
  rw [hfirst] at hsecond
  have hunique := h _ (List.prefix_refl _)
  have htwice : setAll [(key, value), (key, value')] =
      KvStore.kvSet (KvStore.kvSet [] key value) key value' := rfl
  rw [htwice, hfirst, hsecond] at hunique
  simp [maxEntries] at hunique

/-! ## Runs -/

/-- The table represents a map as long as the keys fit while it has room. -/
theorem setAll_represents (calls : List (Bytes × Bytes)) (h : KeysFitWhileRoom calls) :
    ∃ m : KvMap, m.Represents (contents (setAll calls)) := by
  induction calls using List.reverseRecOn with
  | nil => exact ⟨BoundedMap.empty, empty_represents⟩
  | append_singleton calls call ih =>
      obtain ⟨m, hm⟩ := ih h.of_concat
      rw [setAll_concat]
      by_cases hkey : (cstr call.1).length ≤ bufSize - 1
      · exact ⟨_, kvSet_represents_cstr hm hkey call.2⟩
      · have hfull : ¬ (setAll calls).length < maxEntries :=
          fun hroom => hkey (h calls call.1 call.2 (List.prefix_refl _) hroom)
        rw [(keysCut_setAll calls).kvSet_long (by omega), if_neg hfull]
        exact ⟨m, hm⟩

/-- **When the library keeps its keys unique** and gets what was set: exactly if every
key that is set while the table has room fits into a field. -/
theorem keysUnique_iff (calls : List (Bytes × Bytes)) :
    KeysUnique calls ↔ KeysFitWhileRoom calls := by
  constructor
  · intro h past key value hpast hroom
    by_contra hkey
    obtain ⟨val, hget, -⟩ := h.found past key value hpast hroom
    rw [(keysCut_setAll (past ++ [(key, value)])).kvGet_eq_none (by omega)] at hget
    contradiction
  · intro h
    have hbefore : ∀ past, past <+: calls → KeysFitWhileRoom past :=
      fun past hpast p key value hp => h p key value (hp.trans hpast)
    constructor
    · intro past hpast
      obtain ⟨m, hm⟩ := setAll_represents past (hbefore past hpast)
      have hnodup := hm.nodup
      rwa [contents, List.map_map] at hnodup
    · intro past key value hpast hroom
      obtain ⟨m, hm⟩ :=
        setAll_represents past (hbefore past ((List.prefix_append past _).trans hpast))
      rw [setAll_concat]
      exact kvGet_kvSet hm (h past key value hpast hroom) value hroom

/-- A key of 256 letters, set twice, has two entries with the same key. -/
theorem not_keysUnique_longKey :
    ¬ ∀ calls : List (Bytes × Bytes), KeysUnique calls := by
  have hnul : ∀ b ∈ List.replicate 256 (97 : UInt8), b ≠ 0 := by
    intro b hb
    rw [(List.mem_replicate.mp hb).2]
    decide
  have hlong : bufSize - 1 < (cstr (List.replicate 256 97)).length := by
    rw [cstr_eq_self hnul, List.length_replicate]
    decide
  exact fun h => not_unique_of_long hlong [49] [50] (h _).unique

end SystemsInC.Ports.KvLibrary
