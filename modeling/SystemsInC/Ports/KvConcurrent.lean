import SystemsInC.Ports.KvStore
import SystemsInC.Verified.GuardedRuns
import Mathlib.Data.Finset.Dedup

/-!
# Clients of the key-value server at the same time

Every client of the modularized server has a thread of its own, and `kv_set`
takes no lock.  A SET is two steps here: the loop that searches the key, and what
`kv_set` then decides on, which is to change the entry that it found or to append
one.  The steps of all threads interleave in any order.

A state records the SETs that were answered, with the times of their two steps.
Every one of them is kept as long as nobody appends a key that another thread
has appended since the search (`intact_iff`).
-/

namespace SystemsInC.Ports.KvConcurrent

open SystemsInC.Verified.CString
open SystemsInC.Verified.GuardedRuns
open SystemsInC.Verified.TextInput (ascii)
open SystemsInC.Ports.KvStore

/-! ## The system -/

/-- A thread between the two steps of a SET. -/
structure Pending where
  key : Bytes
  value : Bytes
  /-- where the loop found the key -/
  found : Option Nat
  /-- when the loop ran -/
  began : Nat

/-- A SET that was answered with `OK`. -/
structure Answered where
  key : Bytes
  value : Bytes
  began : Nat
  ended : Nat
  deriving DecidableEq

variable {T : Type*}

structure Sys (T : Type*) where
  store : Store
  pending : T → Option Pending
  /-- the number of steps so far -/
  clock : Nat
  answered : List Answered

def Sys.init : Sys T :=
  { store := []
    pending := fun _ => none
    clock := 0
    answered := [] }

/-- The strings of the keys in the table. -/
def Sys.keys (s : Sys T) : List Bytes := s.store.map (fun e => cstr e.key)

/-- The key has one entry, with the value of a SET that no other SET of the key
followed. -/
def Sys.Keeps (s : Sys T) (key : Bytes) : Prop :=
  s.keys.count key = 1 ∧
    ∃ last ∈ s.answered, last.key = key ∧ (kvGet s.store key).map cstr = some last.value ∧
      ∀ other ∈ s.answered, other.key = key → ¬ last.ended < other.began

/-- Nothing that was answered is lost. -/
def Sys.Intact (s : Sys T) : Prop := ∀ call ∈ s.answered, s.Keeps call.key

/-- Fewer keys were set than the table has entries. -/
def Sys.Few (s : Sys T) : Prop := (s.answered.map Answered.key).toFinset.card < maxEntries

/-! ## The steps -/

inductive Act (T : Type*)
  /-- thread `t` reads a message, and its loop in `kv_set` runs -/
  | search (t : T) (msg : Message)
  /-- thread `t` changes the store and answers -/
  | commit (t : T)

/-- `handle_client` with a message that is a SET, up to the end of the loop in
`kv_set`. -/
def Sys.search [DecidableEq T] (s : Sys T) (t : T) (msg : Message) : Option (Sys T) :=
  match s.pending t, Server.setRequest .modular msg.bytes with
  | none, some (key, value) =>
      some { s with
        pending := Function.update s.pending t
          (some { key := key, value := value, found := kvSearch s.store key, began := s.clock })
        clock := s.clock + 1 }
  | _, _ => none

/-- The rest of `kv_set`, and the answer. -/
def Sys.commit [DecidableEq T] (s : Sys T) (t : T) : Option (Sys T) :=
  match s.pending t with
  | some p =>
      some
        { store := kvCommit s.store p.key p.value p.found
          pending := Function.update s.pending t none
          clock := s.clock + 1
          answered := s.answered ++
            [{ key := p.key, value := p.value, began := p.began, ended := s.clock }] }
  | none => none

def Sys.step [DecidableEq T] (s : Sys T) : Act T → Option (Sys T)
  | .search t msg => s.search t msg
  | .commit t => s.commit t

/-- Whoever appends an entry does so while its key is not in the table. -/
def FreshAppend (s : Sys T) : Act T → Prop
  | .search _ _ => True
  | .commit t => ∀ p, s.pending t = some p → p.found = none → p.key ∉ s.keys

/-! ## Invariants -/

theorem keys_eq (s : Sys T) : s.keys = (contents s.store).map Prod.fst := by
  rw [contents, List.map_map]
  rfl

/-- The loop of `kv_set` finds an entry of the key. -/
theorem keys_of_kvSearch {s : Sys T} {key : Bytes} {i : Nat} (hkey : Fits key)
    (h : kvSearch s.store key = some i) : s.keys[i]? = some key := by
  rw [kvSearch_eq hkey] at h
  have ⟨hlt, hat, _⟩ := List.findIdx?_eq_some_iff_getElem.mp h
  rw [keys_eq, List.getElem?_map, List.getElem?_eq_getElem hlt]
  simpa using hat

/-- Few keys at the end of a step were few before it. -/
theorem Sys.Few.of_later {s s' : Sys T} (hfew : s'.Few)
    (h : s.answered <+: s'.answered) : s.Few := by
  refine lt_of_le_of_lt (Finset.card_le_card ?_) hfew
  intro key hkey
  rw [List.mem_toFinset, List.mem_map] at hkey ⊢
  have ⟨call, hcall, heq⟩ := hkey
  exact ⟨call, h.subset hcall, heq⟩

/-- What a thread has read and found, and the order of the times. -/
structure Timed (s : Sys T) : Prop where
  fits : ∀ t p, s.pending t = some p → Fits p.key ∧ Fits p.value
  found : ∀ t p i, s.pending t = some p → p.found = some i → s.keys[i]? = some p.key
  began : ∀ t p, s.pending t = some p → p.began < s.clock
  ended : ∀ call ∈ s.answered, call.began ≤ call.ended ∧ call.ended < s.clock
  key_fits : ∀ call ∈ s.answered, Fits call.key

theorem Timed.init : Timed (Sys.init : Sys T) where
  fits := fun _ _ h => nomatch h
  found := fun _ _ _ h => nomatch h
  began := fun _ _ h => nomatch h
  ended := fun _ h => nomatch h
  key_fits := fun _ h => nomatch h

/-- What a thread between its steps has read and found. -/
structure Waiting (s : Sys T) (p : Pending) : Prop where
  fits : Fits p.key ∧ Fits p.value
  found : ∀ i, p.found = some i → s.keys[i]? = some p.key
  began : p.began < s.clock

theorem Timed.waiting {s : Sys T} {t : T} {p : Pending} (timed : Timed s)
    (hp : s.pending t = some p) : Waiting s p :=
  ⟨timed.fits t p hp, fun i => timed.found t p i hp, timed.began t p hp⟩

theorem Timed.of_waiting {s : Sys T} (hpending : ∀ t p, s.pending t = some p → Waiting s p)
    (ended : ∀ call ∈ s.answered, call.began ≤ call.ended ∧ call.ended < s.clock)
    (key_fits : ∀ call ∈ s.answered, Fits call.key) : Timed s where
  fits := fun t p hp => (hpending t p hp).fits
  found := fun t p i hp => (hpending t p hp).found i
  began := fun t p hp => (hpending t p hp).began
  ended := ended
  key_fits := key_fits

/-- The table grows and time passes. -/
theorem Waiting.keep {s s' : Sys T} {p : Pending} (waiting : Waiting s p)
    (hkeys : s.keys <+: s'.keys) (hclock : s.clock ≤ s'.clock) : Waiting s' p where
  fits := waiting.fits
  found := by
    intro i hi
    have hold := waiting.found i hi
    have ⟨hlt, _⟩ := List.getElem?_eq_some_iff.mp hold
    have ⟨rest, hrest⟩ := hkeys
    rw [← hrest, List.getElem?_append_left hlt]
    exact hold
  began := Nat.lt_of_lt_of_le waiting.began hclock

/-- The entries are the keys that were set, each once, with the value of the last
one that was answered. -/
structure Tidy (s : Sys T) : Prop where
  nodup : s.keys.Nodup
  mem_keys : ∀ key, key ∈ s.keys ↔ ∃ call ∈ s.answered, call.key = key
  last : ∀ kv ∈ contents s.store, ∃ call ∈ s.answered, call.key = kv.1 ∧ call.value = kv.2 ∧
    ∀ other ∈ s.answered, other.key = kv.1 → other.ended ≤ call.ended

theorem Tidy.init : Tidy (Sys.init : Sys T) where
  nodup := List.nodup_nil
  mem_keys := fun _ => by simp [Sys.init, Sys.keys]
  last := fun _ h => nomatch h

/-- As many entries as keys that were set. -/
theorem Tidy.length_eq {s : Sys T} (tidy : Tidy s) :
    s.store.length = (s.answered.map Answered.key).toFinset.card := by
  have hset : (s.answered.map Answered.key).toFinset = s.keys.toFinset := by
    ext key
    rw [List.mem_toFinset, List.mem_toFinset, tidy.mem_keys, List.mem_map]
  rw [hset, List.toFinset_card_of_nodup tidy.nodup, Sys.keys, List.length_map]

/-- The key of a SET is given its value, and all other entries stay. -/
theorem Tidy.commit {s s' : Sys T} {p : Pending} (tidy : Tidy s) (timed : Timed s)
    (hanswered : s'.answered = s.answered ++
      [{ key := p.key, value := p.value, began := p.began, ended := s.clock }])
    (hnodup : s'.keys.Nodup) (hkeys : ∀ key, key ∈ s'.keys ↔ key ∈ s.keys ∨ key = p.key)
    (hnew : (p.key, p.value) ∈ contents s'.store)
    (hold : ∀ kv ∈ contents s'.store, kv.1 ≠ p.key → kv ∈ contents s.store) : Tidy s' where
  nodup := hnodup
  mem_keys := by
    intro key
    rw [hkeys, tidy.mem_keys, hanswered]
    simp [or_and_right, exists_or, eq_comm]
  last := by
    intro kv hkv
    rw [hanswered]
    by_cases hkey : kv.1 = p.key
    · have heq : kv = (p.key, p.value) := by
        rw [keys_eq] at hnodup
        exact List.inj_on_of_nodup_map hnodup hkv hnew hkey
      subst heq
      refine ⟨_, List.mem_append_right _ (List.mem_singleton.mpr rfl), rfl, rfl, ?_⟩
      intro other hother _
      rcases List.mem_append.mp hother with hother | hother
      · exact Nat.le_of_lt (timed.ended other hother).2
      · rw [List.mem_singleton.mp hother]
    · have ⟨call, hcall, hck, hcv, hlater⟩ := tidy.last kv (hold kv hkv hkey)
      refine ⟨call, List.mem_append_left _ hcall, hck, hcv, ?_⟩
      intro other hother hok
      rcases List.mem_append.mp hother with hother | hother
      · exact hlater other hother hok
      · rw [List.mem_singleton.mp hother] at hok
        exact absurd hok.symm hkey

/-- An append to a table that is not full. -/
theorem keys_commit_append {s s' : Sys T} {p : Pending} (hkey : Fits p.key) (hvalue : Fits p.value)
    (hroom : s.store.length < maxEntries)
    (hstore : s'.store = kvCommit s.store p.key p.value none) :
    s'.keys = s.keys ++ [p.key] := by
  rw [keys_eq, keys_eq, hstore, contents_append hkey hvalue hroom, List.map_append]
  rfl

/-- An update keeps the keys. -/
theorem keys_update (store : Store) (key value : Bytes) (i : Nat) :
    (kvCommit store key value (some i)).map (fun e => cstr e.key) =
      store.map (fun e => cstr e.key) := by
  apply List.ext_getElem?
  intro j
  show ((store.modify i _).map _)[j]? = _
  rw [List.getElem?_map, List.getElem?_modify, List.getElem?_map]
  cases store[j]? with
  | none => rfl
  | some e => by_cases hij : i = j <;> simp [hij]

/-- A SET that found its key changes the value of this entry. -/
theorem Tidy.update {s s' : Sys T} {p : Pending} {i : Nat} (tidy : Tidy s) (timed : Timed s)
    (waiting : Waiting s p) (hfound : p.found = some i)
    (hanswered : s'.answered = s.answered ++
      [{ key := p.key, value := p.value, began := p.began, ended := s.clock }])
    (hstore : s'.store = kvCommit s.store p.key p.value (some i)) : Tidy s' := by
  have hi := waiting.found i hfound
  have hsame : s'.keys = s.keys := by
    rw [Sys.keys, hstore, keys_update]
    rfl
  have hcontents : contents s'.store = (contents s.store).set i (p.key, p.value) := by
    rw [hstore]
    apply contents_update waiting.fits.2
    rw [keys_eq, List.getElem?_map] at hi
    exact hi
  have hlt : i < (contents s.store).length := by
    have ⟨hlt, _⟩ := List.getElem?_eq_some_iff.mp hi
    rwa [keys_eq, List.length_map] at hlt
  apply tidy.commit timed hanswered
  · rw [hsame]
    exact tidy.nodup
  · intro key
    rw [hsame]
    constructor
    · exact .inl
    · rintro (hmem | rfl)
      · exact hmem
      · exact List.mem_of_getElem? hi
  · rw [hcontents]
    exact List.mem_set hlt _
  · intro kv hkv hne
    rw [hcontents] at hkv
    rcases List.mem_or_eq_of_mem_set hkv with hmem | rfl
    · exact hmem
    · exact absurd rfl hne

/-- A SET of a key that is not in the table adds an entry. -/
theorem Tidy.append {s s' : Sys T} {p : Pending} (tidy : Tidy s) (timed : Timed s)
    (waiting : Waiting s p) (hfresh : p.key ∉ s.keys) (hroom : s.store.length < maxEntries)
    (hanswered : s'.answered = s.answered ++
      [{ key := p.key, value := p.value, began := p.began, ended := s.clock }])
    (hstore : s'.store = kvCommit s.store p.key p.value none) : Tidy s' := by
  have ⟨hkey, hvalue⟩ := waiting.fits
  have hcontents : contents s'.store = contents s.store ++ [(p.key, p.value)] := by
    rw [hstore, contents_append hkey hvalue hroom]
  have hkeys := keys_commit_append hkey hvalue hroom hstore
  apply tidy.commit timed hanswered
  · rw [hkeys]
    exact tidy.nodup.append (List.nodup_singleton _) (by simpa using hfresh)
  · intro key
    rw [hkeys, List.mem_append, List.mem_singleton]
  · rw [hcontents]
    exact List.mem_append_right _ (List.mem_singleton.mpr rfl)
  · intro kv hkv hne
    rw [hcontents] at hkv
    rcases List.mem_append.mp hkv with hmem | hnew
    · exact hmem
    · rw [List.mem_singleton.mp hnew] at hne
      exact absurd rfl hne

/-- A tidy table has lost nothing. -/
theorem Tidy.intact {s : Sys T} (tidy : Tidy s) (timed : Timed s) : s.Intact := by
  intro call hcall
  have hmem := (tidy.mem_keys call.key).mpr ⟨call, hcall, rfl⟩
  refine ⟨List.count_eq_one_of_mem tidy.nodup hmem, ?_⟩
  rw [keys_eq, List.mem_map] at hmem
  have ⟨entry, hentry, hkey⟩ := hmem
  cases hfind : (contents s.store).find? (fun e => e.1 = call.key) with
  | none =>
      have hno := List.find?_eq_none.mp hfind entry hentry
      simp [hkey] at hno
  | some kv =>
      have hkv : kv.1 = call.key := by simpa using List.find?_some hfind
      have ⟨last, hlast, hlk, hlv, hlater⟩ := tidy.last kv (List.mem_of_find?_eq_some hfind)
      refine ⟨last, hlast, hlk.trans hkv, ?_, fun other hother hok => ?_⟩
      · rw [kvGet_eq (timed.key_fits call hcall), hfind, hlv]
        rfl
      · have hle := hlater other hother (hok.trans hkv.symm)
        have hbegan := (timed.ended other hother).1
        omega

/-! ## What a step does -/

variable [DecidableEq T]

theorem search_cases {s s' : Sys T} {t : T} {msg : Message} (h : s.search t msg = some s') :
    ∃ key value, Server.setRequest .modular msg.bytes = some (key, value) ∧
      s' = { s with
        pending := Function.update s.pending t
          (some { key := key, value := value, found := kvSearch s.store key, began := s.clock })
        clock := s.clock + 1 } := by
  unfold Sys.search at h
  split at h
  case h_1 key value _ hset => exact ⟨key, value, hset, (Option.some.inj h).symm⟩
  case h_2 => cases h

theorem commit_cases {s s' : Sys T} {t : T} (h : s.commit t = some s') :
    ∃ p, s.pending t = some p ∧ s' =
      { store := kvCommit s.store p.key p.value p.found
        pending := Function.update s.pending t none
        clock := s.clock + 1
        answered := s.answered ++
          [{ key := p.key, value := p.value, began := p.began, ended := s.clock }] } := by
  unfold Sys.commit at h
  split at h
  case h_1 p hp => exact ⟨p, hp, (Option.some.inj h).symm⟩
  case h_2 => cases h

/-! ## The table only grows -/

/-- The keys of the table are a prefix of what they are after a `kv_set`. -/
theorem keys_grow_kvCommit (store : Store) (key value : Bytes) (found : Option Nat) :
    store.map (fun e => cstr e.key) <+:
      (kvCommit store key value found).map (fun e => cstr e.key) := by
  cases found with
  | some i => rw [keys_update]
  | none =>
      rw [kvCommit]
      split
      · rw [List.map_append]
        exact List.prefix_append _ _
      · exact List.prefix_rfl

theorem keys_grow {s s' : Sys T} {a : Act T} (h : s.step a = some s') : s.keys <+: s'.keys := by
  cases a with
  | search t msg =>
      have ⟨key, value, _, heq⟩ := search_cases h
      rw [heq]
      exact List.prefix_rfl
  | commit t =>
      have ⟨p, _, heq⟩ := commit_cases h
      rw [heq]
      exact keys_grow_kvCommit _ _ _ _

/-- Answers are not taken back. -/
theorem answered_grows {s s' : Sys T} {a : Act T} (h : s.step a = some s') :
    s.answered <+: s'.answered := by
  cases a with
  | search t msg =>
      have ⟨key, value, _, heq⟩ := search_cases h
      rw [heq]
  | commit t =>
      have ⟨p, _, heq⟩ := commit_cases h
      rw [heq]
      exact List.prefix_append _ _

/-- Along a run the table and the answers only grow. -/
theorem grows_run {s s' : Sys T} {as : List (Act T)} (h : run Sys.step s as = some s') :
    s.keys <+: s'.keys ∧ s.answered <+: s'.answered := by
  apply (Reach.of_run h).keeps (P := fun s' => s.keys <+: s'.keys ∧ s.answered <+: s'.answered)
  · exact ⟨List.prefix_rfl, List.prefix_rfl⟩
  · exact fun _ _ _ hold _ hs =>
      ⟨hold.1.trans (keys_grow hs), hold.2.trans (answered_grows hs)⟩

/-! ## Threads between their steps -/

/-- A thread that has something to do after the step had it before, or is the one
that searched. -/
theorem pending_update {s : Sys T} {t u : T} {x : Option Pending} {p : Pending}
    (h : Function.update s.pending t x u = some p) : x = some p ∨ s.pending u = some p := by
  by_cases hu : u = t
  · subst hu
    rw [Function.update_self] at h
    exact .inl h
  · rw [Function.update_of_ne hu] at h
    exact .inr h

theorem Timed.step {s s' : Sys T} {a : Act T} (timed : Timed s) (h : s.step a = some s') :
    Timed s' := by
  have hkeys := keys_grow h
  cases a with
  | search t msg =>
      have ⟨key, value, hset, heq⟩ := search_cases h
      have hfits := setRequest_fits msg.length_le hset
      subst heq
      refine .of_waiting (fun u p hp => ?_) (fun call hcall => ?_) timed.key_fits
      · rcases pending_update hp with hnew | hp
        · cases hnew
          exact ⟨hfits, fun i hi => keys_of_kvSearch hfits.1 hi, Nat.lt_succ_self s.clock⟩
        · exact (timed.waiting hp).keep hkeys (Nat.le_succ s.clock)
      · have ⟨hbegan, hended⟩ := timed.ended call hcall
        exact ⟨hbegan, Nat.lt_succ_of_lt hended⟩
  | commit t =>
      have ⟨q, hq, heq⟩ := commit_cases h
      subst heq
      refine .of_waiting (fun u p hp => ?_) (fun call hcall => ?_) (fun call hcall => ?_)
      · rcases pending_update hp with hnew | hp
        · cases hnew
        · exact (timed.waiting hp).keep hkeys (Nat.le_succ s.clock)
      · rcases List.mem_append.mp hcall with hcall | hnew
        · have ⟨hbegan, hended⟩ := timed.ended call hcall
          exact ⟨hbegan, Nat.lt_succ_of_lt hended⟩
        · rw [List.mem_singleton.mp hnew]
          exact ⟨Nat.le_of_lt (timed.began t q hq), Nat.lt_succ_self s.clock⟩
      · rcases List.mem_append.mp hcall with hcall | hnew
        · exact timed.key_fits call hcall
        · rw [List.mem_singleton.mp hnew]
          exact (timed.fits t q hq).1

/-! ## Without a second append of a key -/

theorem Tidy.step {s s' : Sys T} {a : Act T} (tidy : Tidy s) (timed : Timed s)
    (hok : FreshAppend s a) (hfew : s'.Few) (h : s.step a = some s') : Tidy s' := by
  cases a with
  | search t msg =>
      have ⟨key, value, _, heq⟩ := search_cases h
      subst heq
      exact ⟨tidy.nodup, tidy.mem_keys, tidy.last⟩
  | commit t =>
      have ⟨p, hp, heq⟩ := commit_cases h
      have hanswered : s'.answered = s.answered ++
          [{ key := p.key, value := p.value, began := p.began, ended := s.clock }] := by
        rw [heq]
      have hstore : s'.store = kvCommit s.store p.key p.value p.found := by rw [heq]
      cases hfound : p.found with
      | some i => exact tidy.update timed (timed.waiting hp) hfound hanswered (hfound ▸ hstore)
      | none =>
          have hroom : s.store.length < maxEntries := by
            rw [tidy.length_eq]
            exact hfew.of_later (answered_grows h)
          exact tidy.append timed (timed.waiting hp) (hok p hp hfound) hroom hanswered
            (hfound ▸ hstore)

/-- A key with two entries keeps them. -/
theorem not_intact_of_count {s s' : Sys T} {as : List (Act T)} {call : Answered}
    (hcall : call ∈ s.answered) (hcount : 2 ≤ s.keys.count call.key)
    (hrun : run Sys.step s as = some s') : ¬ s'.Intact := by
  intro hintact
  have hone := (hintact call ((grows_run hrun).2.subset hcall)).1
  have hle := (grows_run hrun).1.sublist.count_le call.key
  omega

/-- An entry for a key that is in the table. -/
theorem not_intact_of_append {s s' : Sys T} {a : Act T} {as : List (Act T)} {s₁ : Sys T}
    (tidy : Tidy s) (timed : Timed s) (hfew : s.Few) (hnot : ¬ FreshAppend s a)
    (h : s.step a = some s₁) (hrun : run Sys.step s₁ as = some s') : ¬ s'.Intact := by
  cases a with
  | search t msg => exact absurd trivial hnot
  | commit t =>
      have ⟨p, hp, heq⟩ := commit_cases h
      have ⟨hkey, hvalue⟩ := timed.fits t p hp
      have hsecond : p.found = none ∧ p.key ∈ s.keys := by
        by_contra hno
        refine hnot (fun q hq hfound hmem => ?_)
        have hqp : q = p := Option.some.inj (hq.symm.trans hp)
        subst hqp
        exact hno ⟨hfound, hmem⟩
      have hroom : s.store.length < maxEntries := by
        rw [tidy.length_eq]
        exact hfew
      have hkeys : s₁.keys = s.keys ++ [p.key] := by
        apply keys_commit_append hkey hvalue hroom
        rw [heq, hsecond.1]
      have hcount : 2 ≤ s₁.keys.count p.key := by
        have hone := List.count_pos_iff.mpr hsecond.2
        rw [hkeys, List.count_append, List.count_singleton_self]
        omega
      have hcall : { key := p.key, value := p.value, began := p.began, ended := s.clock } ∈
          s₁.answered := by
        rw [heq]
        exact List.mem_append_right _ (List.mem_singleton.mpr rfl)
      exact not_intact_of_count hcall hcount hrun

/-- A run of any number of clients in which fewer keys are set than there are
entries loses nothing if and only if every entry is appended while its key is not
in the table. -/
theorem intact_iff (as : List (Act T)) (s : Sys T) (hrun : run Sys.step Sys.init as = some s)
    (hfew : s.Few) : s.Intact ↔ Admitted Sys.step FreshAppend Sys.init as := by
  have hinv : ∀ s₁ : Sys T, Reach Sys.step FreshAppend Sys.init s₁ → s₁.Few →
      Tidy s₁ ∧ Timed s₁ := by
    intro s₁ hreach
    apply hreach.keeps (P := fun s₁ => s₁.Few → Tidy s₁ ∧ Timed s₁)
    · exact fun _ => ⟨Tidy.init, Timed.init⟩
    · intro s₁ a s₂ ih hok hs hfew₂
      have ⟨tidy, timed⟩ := ih (hfew₂.of_later (answered_grows hs))
      exact ⟨tidy.step timed hok hfew₂ hs, timed.step hs⟩
  constructor
  · intro hintact
    by_contra hnot
    have ⟨s₁, a, s₂, bs, hreach, ha, hs, hrest⟩ := Reach.refl.exists_not_admitted hnot hrun
    have hfew₁ := (hfew.of_later (grows_run hrest).2).of_later (answered_grows hs)
    have ⟨tidy, timed⟩ := hinv s₁ hreach hfew₁
    exact not_intact_of_append tidy timed hfew₁ ha hs hrest hintact
  · intro hadmitted
    have ⟨tidy, timed⟩ := hinv s (Reach.of_admitted hadmitted hrun) hfew
    exact tidy.intact timed

/-! ## Two clients -/

/-- The message `SET k <digit>`. -/
def setDigit (digit : UInt8) : Message where
  bytes := ascii "SET k " ++ [digit]
  ne_nil := List.cons_ne_nil _ _
  length_le := Nat.le_of_ble_eq_true rfl

/-- One client after the other: the second one finds the key. -/
theorem intact_inTurn :
    ∃ s : Sys Bool, run Sys.step Sys.init [.search false (setDigit 49), .commit false,
      .search true (setDigit 50), .commit true] = some s ∧ s.Intact := by
  have hrun : run Sys.step (Sys.init : Sys Bool) [.search false (setDigit 49), .commit false,
      .search true (setDigit 50), .commit true] = some _ := rfl
  refine ⟨_, hrun, (intact_iff _ _ hrun (by unfold Sys.Few; decide)).mpr ?_⟩
  apply Admitted.cons rfl trivial
  apply Admitted.cons rfl (fun _ _ _ => List.not_mem_nil)
  apply Admitted.cons rfl trivial
  refine Admitted.cons rfl (fun p hp hfound => ?_) trivial
  have heq : { key := ascii "k", value := [50], found := some 0, began := 2 } = p :=
    Option.some.inj hp
  rw [← heq] at hfound
  cases hfound

/-- Both clients search a key that is not there, and then both append it. -/
theorem not_intact_together :
    ∃ s : Sys Bool, run Sys.step Sys.init [.search false (setDigit 49),
      .search true (setDigit 50), .commit false, .commit true] = some s ∧
      (∀ t, s.pending t = none) ∧ s.Few ∧ ¬ s.Intact := by
  refine ⟨_, rfl, ?_, by unfold Sys.Few; decide, ?_⟩
  · intro t
    cases t <;> rfl
  · intro hintact
    have hone := (hintact _ List.mem_cons_self).1
    exact absurd hone (by decide)

end SystemsInC.Ports.KvConcurrent
