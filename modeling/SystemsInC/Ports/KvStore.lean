import SystemsInC.Verified.BoundedMap
import SystemsInC.Verified.FormatScan
import Mathlib.Data.Bool.AllAny

/-!
# The key-value server

`kv_get` and `kv_set` search a table of at most `MAX_ENTRIES` entries from its
start; the server reads a request, takes it apart with `sscanf` and writes one
reply.  There are two servers with the same store, which differ in the widths of
their two formats.

The table represents a map with a bounded number of keys (`serve_represents`),
whatever the clients send, and the replies to well-formed requests are those of
the map (`serve_refines_map`).  What the map does not take, the server answers
with `OK` nevertheless (`set_then_get_iff`).
-/

namespace SystemsInC.Ports.KvStore

open SystemsInC.Verified
open SystemsInC.Verified.CString
open SystemsInC.Verified.TextInput (ascii isSpace)
open SystemsInC.Verified.FormatScan

/-! ## The store -/

def bufSize : Nat := 256

def maxEntries : Nat := 100

/-- A pair of `char` arrays of `BUF_SIZE` bytes. -/
structure KeyValue where
  key : Bytes
  value : Bytes
  deriving DecidableEq

/-- The first `store_count` entries of `store`. -/
abbrev Store := List KeyValue

/-- `strncpy(dst, src, BUF_SIZE - 1); dst[BUF_SIZE - 1] = '\0'`. -/
def copyField (src : Bytes) : Bytes := strncpy src (bufSize - 1) ++ [0]

def kvGet (store : Store) (key : Bytes) : Option Bytes :=
  (store.find? (fun e => strcmpEq e.key key)).map KeyValue.value

/-- The loop of `kv_set`: the entry of the key. -/
def kvSearch (store : Store) (key : Bytes) : Option Nat :=
  store.findIdx? (fun e => strcmpEq e.key key)

/-- What `kv_set` does when its loop is over: change the value of the entry that
was found, or append an entry while there is room. -/
def kvCommit (store : Store) (key value : Bytes) : Option Nat → Store
  | some i => store.modify i (fun e => { e with value := copyField value })
  | none =>
      if store.length < maxEntries then
        store ++ [{ key := copyField key, value := copyField value }]
      else
        store

def kvSet (store : Store) (key value : Bytes) : Store :=
  kvCommit store key value (kvSearch store key)

/-! ## The servers -/

inductive Server
  /-- `key-value/server.c`, and `mini-key-value/server.c` -/
  | keyValue
  /-- `handle_client` of the modularized store -/
  | modular

/-- The width of the fields in the formats. -/
def Server.width : Server → Option Nat
  | .keyValue => none
  | .modular => some 255

/-- `"SET %s %[^\n]"` or `"SET %255s %255[^\n]"`. -/
def Server.setFormat (srv : Server) : List Directive :=
  (ascii "SET").map .lit ++ [.white, str srv.width, .white, line srv.width]

/-- `"GET %s"` or `"GET %255s"`. -/
def Server.getFormat (srv : Server) : List Directive :=
  (ascii "GET").map .lit ++ [.white, str srv.width]

/-- The key and the value, if `sscanf` finds both. -/
def Server.setRequest (srv : Server) (buf : Bytes) : Option (Bytes × Bytes) :=
  match sscanf buf srv.setFormat with
  | (2, [key, value]) => some (key, value)
  | _ => none

/-- The key, if `sscanf` finds it. -/
def Server.getRequest (srv : Server) (buf : Bytes) : Option Bytes :=
  match sscanf buf srv.getFormat with
  | (1, [key]) => some key
  | _ => none

inductive Reply
  | ok
  | value (text : Bytes)
  | notFound
  | error
  deriving DecidableEq

/-- What the server writes. -/
def Reply.bytes : Reply → Bytes
  | .ok => ascii "OK\n"
  | .value text => text ++ ascii "\n"
  | .notFound => ascii "NOT_FOUND\n"
  | .error => ascii "ERROR\n"

/-- One round of the server: the request in `buf` and the reply to it. -/
def Server.handle (srv : Server) (store : Store) (buf : Bytes) : Store × Reply :=
  match srv.setRequest buf with
  | some (key, value) => (kvSet store key value, .ok)
  | none =>
      match srv.getRequest buf with
      | some key =>
          match kvGet store key with
          | some val => (store, .value (cstr val))
          | none => (store, .notFound)
      | none => (store, .error)

/-- What one `read(fd, buf, sizeof(buf) - 1)` brings. -/
structure Message where
  bytes : Bytes
  ne_nil : bytes ≠ []
  length_le : bytes.length ≤ bufSize - 1

/-- The store after the requests, and the replies. -/
def Server.serve (srv : Server) (store : Store) : List Message → Store × List Reply
  | [] => (store, [])
  | m :: ms =>
      let done := srv.handle store m.bytes
      let rest := srv.serve done.1 ms
      (rest.1, done.2 :: rest.2)

/-! ## The table as a map -/

/-- A string that fits into a field: what `sscanf` can store. -/
def Fits (text : Bytes) : Prop := (∀ b ∈ text, b ≠ 0) ∧ text.length ≤ bufSize - 1

/-- The strings of the table. -/
def contents (store : Store) : List (Bytes × Bytes) :=
  store.map (fun e => (cstr e.key, cstr e.value))

@[simp] theorem contents_nil : contents [] = [] := rfl

@[simp] theorem contents_length (store : Store) : (contents store).length = store.length := by
  rw [contents, List.length_map]

theorem Fits.cstr_eq {text : Bytes} (h : Fits text) : cstr text = text := cstr_eq_self h.1

/-- A field keeps a text that fits. -/
theorem Fits.cstr_copyField {text : Bytes} (h : Fits text) : cstr (copyField text) = text := by
  rw [copyField, cstr_strncpy_append_zero, h.cstr_eq, List.take_of_length_le h.2]

theorem kvSearch_eq {key : Bytes} (h : Fits key) (store : Store) :
    kvSearch store key = (contents store).findIdx? (fun e => e.1 = key) := by
  rw [contents, List.findIdx?_map, kvSearch]
  congr 1
  funext e
  simp only [strcmpEq, h.cstr_eq, Function.comp]

theorem kvGet_eq {key : Bytes} (h : Fits key) (store : Store) :
    (kvGet store key).map cstr = ((contents store).find? (fun e => e.1 = key)).map Prod.snd := by
  rw [contents, List.find?_map, kvGet, Option.map_map, Option.map_map]
  congr 2
  funext e
  simp only [strcmpEq, h.cstr_eq, Function.comp]

/-- An update of the entry that was found for the key. -/
theorem contents_update {store : Store} {key value : Bytes} {i : Nat} (hvalue : Fits value)
    (hi : (contents store)[i]?.map Prod.fst = some key) :
    contents (kvCommit store key value (some i)) = (contents store).set i (key, value) := by
  apply List.ext_getElem?
  intro j
  show (List.map _ (store.modify i _))[j]? = _
  rw [List.getElem?_map, List.getElem?_modify, List.getElem?_set]
  by_cases hij : i = j
  · subst hij
    rw [contents, List.getElem?_map] at hi
    cases hget : store[i]? with
    | none =>
        rw [hget] at hi
        cases hi
    | some e =>
        have hlt : i < store.length := (List.getElem?_eq_some_iff.mp hget).1
        rw [hget] at hi
        have hkey : cstr e.key = key := by simpa using hi
        simp [hlt, hkey, hvalue.cstr_copyField]
  · rw [if_neg hij, contents, List.getElem?_map]
    simp [hij]

theorem contents_append {store : Store} {key value : Bytes} (hkey : Fits key) (hvalue : Fits value)
    (hroom : store.length < maxEntries) :
    contents (kvCommit store key value none) = contents store ++ [(key, value)] := by
  rw [kvCommit, if_pos hroom, contents, List.map_append]
  simp [hkey.cstr_copyField, hvalue.cstr_copyField, contents]

/-- A map of strings that the table can hold. -/
abbrev KvMap := BoundedMap Bytes Bytes maxEntries

theorem empty_represents : (BoundedMap.empty : KvMap).Represents (contents []) := .empty

/-- `kv_set` binds the key in the map, if the map accepts it. -/
theorem kvSet_represents {store : Store} {m : KvMap} {key value : Bytes}
    (h : m.Represents (contents store)) (hkey : Fits key) (hvalue : Fits value) :
    (m.set key value).Represents (contents (kvSet store key value)) := by
  rw [kvSet]
  cases hfound : kvSearch store key with
  | some i =>
      rw [kvSearch_eq hkey] at hfound
      have ⟨hlt, hat, _⟩ := List.findIdx?_eq_some_iff_getElem.mp hfound
      rw [contents_update hvalue]
      · exact h.update hfound value
      · rw [List.getElem?_eq_getElem hlt]
        simpa using hat
  | none =>
      rw [kvSearch_eq hkey] at hfound
      by_cases hroom : store.length < maxEntries
      · rw [contents_append hkey hvalue hroom]
        exact h.append hfound (by rwa [contents_length]) value
      · rw [kvCommit, if_neg hroom, h.full hfound (by rwa [contents_length])]
        exact h

/-! ## Arbitrary requests -/

variable {srv : Server}

/-- What `sscanf` stores fits, as the request fits into `buf`. -/
theorem setRequest_fits {buf key value : Bytes} (hbuf : buf.length ≤ bufSize - 1)
    (h : srv.setRequest buf = some (key, value)) : Fits key ∧ Fits value := by
  have hmem : ∀ x ∈ (sscanf buf srv.setFormat).2, Fits x := by
    intro x hx
    have ⟨hzero, hlen⟩ := sscanf_mem hx
    exact ⟨hzero, hlen.trans hbuf⟩
  unfold Server.setRequest at h
  split at h
  case h_1 k v heq =>
      cases h
      rw [heq] at hmem
      exact ⟨hmem key (by simp), hmem value (by simp)⟩
  case h_2 => cases h

/-- The value does not fill the buffer, as the request starts with `SET`. -/
theorem setRequest_length {buf key value : Bytes} (h : srv.setRequest buf = some (key, value)) :
    value.length + 3 ≤ buf.length := by
  unfold Server.setRequest at h
  split at h
  case h_1 k v heq =>
      cases h
      have hmem : value ∈ (scan srv.setFormat (cstr buf) []).2 := by
        rw [sscanf] at heq
        rw [heq]
        simp
      have hle := scan_lits_length hmem
      have hcstr : (cstr buf).length ≤ buf.length := (List.takeWhile_prefix _).length_le
      exact hle.trans hcstr
  case h_2 => cases h

/-- A request that is a SET. -/
theorem handle_set {store : Store} {buf key value : Bytes}
    (h : srv.setRequest buf = some (key, value)) :
    srv.handle store buf = (kvSet store key value, .ok) := by
  rw [Server.handle, h]

/-- What a request means for the map. -/
noncomputable def Server.effect (srv : Server) (m : KvMap) (msg : Message) : KvMap :=
  match srv.setRequest msg.bytes with
  | some (key, value) => m.set key value
  | none => m

/-- A request changes the table as it changes the map. -/
theorem handle_represents {store : Store} {m : KvMap} (h : m.Represents (contents store))
    (msg : Message) :
    (srv.effect m msg).Represents (contents (srv.handle store msg.bytes).1) := by
  unfold Server.effect Server.handle
  cases hset : srv.setRequest msg.bytes with
  | some kv =>
      have ⟨hkey, hvalue⟩ := setRequest_fits msg.length_le hset
      exact kvSet_represents h hkey hvalue
  | none =>
      cases hget : srv.getRequest msg.bytes with
      | some key =>
          simp only []
          cases kvGet store key with
          | some val => exact h
          | none => exact h
      | none => exact h

/-- Whatever was requested, the table represents a map. -/
theorem serve_represents (srv : Server) {store : Store} {m : KvMap} (h : m.Represents (contents store))
    (msgs : List Message) :
    (msgs.foldl srv.effect m).Represents (contents (srv.serve store msgs).1) := by
  induction msgs generalizing store m with
  | nil => exact h
  | cons msg msgs ih => exact ih (handle_represents h msg)

/-- The table is searched for a binding of the map. -/
theorem kvGet_represents {store : Store} {m : KvMap} {key : Bytes}
    (h : m.Represents (contents store)) (hkey : Fits key) :
    (kvGet store key).map cstr = m.value key := by
  rw [kvGet_eq hkey]
  exact h.find key

/-! ## Well-formed requests -/

/-- A key: not empty, without white space and without NUL. -/
structure Key where
  bytes : Bytes
  ne_nil : bytes ≠ []
  no_space : ∀ b ∈ bytes, isSpace b = false
  no_nul : ∀ b ∈ bytes, b ≠ 0

/-- A value: not empty, without newline and NUL, and with no white space at its
start. -/
structure Value where
  bytes : Bytes
  ne_nil : bytes ≠ []
  no_newline : ∀ b ∈ bytes, b ≠ 10
  no_nul : ∀ b ∈ bytes, b ≠ 0
  no_space : ∀ b, bytes.head? = some b → isSpace b = false

inductive Command
  | set (k : Key) (v : Value)
  | get (k : Key)

/-- The text of a request. -/
def Command.text : Command → Bytes
  | .set k v => ascii "SET" ++ 32 :: (k.bytes ++ 32 :: v.bytes)
  | .get k => ascii "GET" ++ 32 :: k.bytes

/-- A well-formed request that fits into one `read`. -/
structure Request where
  command : Command
  length_le : command.text.length ≤ bufSize - 1

def Request.message (r : Request) : Message where
  bytes := r.command.text
  ne_nil := by
    cases r.command <;> exact List.cons_ne_nil _ _
  length_le := r.length_le

theorem Command.cstr_text (c : Command) : cstr c.text = c.text := by
  apply cstr_eq_self
  cases c with
  | set k v =>
      have htag : ∀ b ∈ ascii "SET", b ≠ 0 := List.all_iff_forall_prop.mp (by decide)
      simpa [Command.text, or_imp, forall_and] using ⟨htag, k.no_nul, v.no_nul⟩
  | get k =>
      have htag : ∀ b ∈ ascii "GET", b ≠ 0 := List.all_iff_forall_prop.mp (by decide)
      simpa [Command.text, or_imp, forall_and] using ⟨htag, k.no_nul⟩

/-- A text that fits is no longer than the width of the field. -/
theorem length_le_width {text : Bytes} (h : text.length ≤ bufSize - 1) (srv : Server) :
    ∀ n, srv.width = some n → text.length ≤ n := by
  intro n hn
  cases srv with
  | keyValue => cases hn
  | modular =>
      cases hn
      exact h

/-- `%s` takes a key up to a blank or the end. -/
theorem scan_key (k : Key) (srv : Server) (hlen : k.bytes.length ≤ bufSize - 1)
    {fmt : List Directive} {rest : Bytes} {got : List Bytes}
    (hstop : ∀ b, rest.head? = some b → isSpace b = true) :
    scan (str srv.width :: fmt) (k.bytes ++ rest) got = scan fmt rest (got ++ [k.bytes]) := by
  apply scan_field k.ne_nil
  · intro b hb
    rw [k.no_space b hb]
    rfl
  · intro b hb
    rw [hstop b hb]
    rfl
  · exact length_le_width hlen srv
  · exact fun _ b hb => k.no_space b (List.mem_of_head? hb)

/-- `%[^\n]` takes a value up to the end. -/
theorem scan_value (v : Value) (srv : Server) (hlen : v.bytes.length ≤ bufSize - 1)
    {fmt : List Directive} {got : List Bytes} :
    scan (line srv.width :: fmt) v.bytes got = scan fmt [] (got ++ [v.bytes]) := by
  have hscan : scan (line srv.width :: fmt) (v.bytes ++ []) got =
      scan fmt [] (got ++ [v.bytes]) := by
    apply scan_field v.ne_nil
    · intro b hb
      simpa using v.no_newline b hb
    · intro b hb
      cases hb
    · exact length_le_width hlen srv
    · exact fun hskip => absurd hskip Bool.false_ne_true
  rwa [List.append_nil] at hscan

/-- The fields of a SET are what `sscanf` stores. -/
theorem setRequest_text (srv : Server) {k : Key} {v : Value}
    (h : (Command.set k v).text.length ≤ bufSize - 1) :
    srv.setRequest (Command.set k v).text = some (k.bytes, v.bytes) := by
  have hlen : k.bytes.length ≤ bufSize - 1 ∧ v.bytes.length ≤ bufSize - 1 := by
    simp only [Command.text, List.length_append, List.length_cons] at h
    omega
  have hkey : ∀ b, (k.bytes ++ 32 :: v.bytes).head? = some b → isSpace b = false := by
    intro b hb
    apply k.no_space b
    rw [List.head?_append_of_ne_nil _ k.ne_nil] at hb
    exact List.mem_of_head? hb
  have hscan : sscanf (Command.set k v).text srv.setFormat = (2, [k.bytes, v.bytes]) := by
    calc sscanf (Command.set k v).text srv.setFormat
        = scan srv.setFormat (Command.set k v).text [] := by rw [sscanf, Command.cstr_text]
      _ = scan [.white, str srv.width, .white, line srv.width]
            (32 :: (k.bytes ++ 32 :: v.bytes)) [] := scan_lits _ _ _ _
      _ = scan [str srv.width, .white, line srv.width] (k.bytes ++ 32 :: v.bytes) [] :=
          scan_white hkey
      _ = scan [.white, line srv.width] (32 :: v.bytes) [k.bytes] := by
          apply scan_key k srv hlen.1
          intro b hb
          cases hb
          rfl
      _ = scan [line srv.width] v.bytes [k.bytes] := scan_white v.no_space
      _ = scan [] [] [k.bytes, v.bytes] := scan_value v srv hlen.2
      _ = (2, [k.bytes, v.bytes]) := rfl
  rw [Server.setRequest, hscan]
  rfl

theorem setRequest_get (srv : Server) (k : Key) : srv.setRequest (Command.get k).text = none := by
  have hscan : sscanf (Command.get k).text srv.setFormat = (0, []) := by
    rw [sscanf, Command.cstr_text]
    rfl
  rw [Server.setRequest, hscan]
  rfl

theorem getRequest_text (srv : Server) {k : Key}
    (h : (Command.get k).text.length ≤ bufSize - 1) :
    srv.getRequest (Command.get k).text = some k.bytes := by
  have hlen : k.bytes.length ≤ bufSize - 1 := by
    simp only [Command.text, List.length_append, List.length_cons] at h
    omega
  have hkey : ∀ b, k.bytes.head? = some b → isSpace b = false :=
    fun b hb => k.no_space b (List.mem_of_head? hb)
  have hscan : sscanf (Command.get k).text srv.getFormat = (1, [k.bytes]) := by
    calc sscanf (Command.get k).text srv.getFormat
        = scan srv.getFormat (Command.get k).text [] := by rw [sscanf, Command.cstr_text]
      _ = scan [.white, str srv.width] (32 :: k.bytes) [] := scan_lits _ _ _ _
      _ = scan [str srv.width] (k.bytes ++ []) [] := by
          rw [List.append_nil]
          exact scan_white hkey
      _ = scan [] [] [k.bytes] := by
          apply scan_key k srv hlen
          intro b hb
          cases hb
      _ = (1, [k.bytes]) := rfl
  rw [Server.getRequest, hscan]
  rfl

/-! ## The replies are those of the map -/

/-- The map after a request, and its reply. -/
noncomputable def Command.apply (m : KvMap) : Command → KvMap × Reply
  | .set k v => (m.set k.bytes v.bytes, .ok)
  | .get k =>
      match m.value k.bytes with
      | some text => (m, .value text)
      | none => (m, .notFound)

/-- The replies of the map to the requests. -/
noncomputable def repliesOf (m : KvMap) : List Request → List Reply
  | [] => []
  | r :: rs => (r.command.apply m).2 :: repliesOf (r.command.apply m).1 rs

theorem Fits.of_set {k : Key} {v : Value} (h : (Command.set k v).text.length ≤ bufSize - 1) :
    Fits k.bytes ∧ Fits v.bytes := by
  simp only [Command.text, List.length_append, List.length_cons] at h
  exact ⟨⟨k.no_nul, by omega⟩, ⟨v.no_nul, by omega⟩⟩

theorem Fits.of_get {k : Key} (h : (Command.get k).text.length ≤ bufSize - 1) :
    Fits k.bytes := by
  simp only [Command.text, List.length_append, List.length_cons] at h
  exact ⟨k.no_nul, by omega⟩

/-- The reply to a GET is the binding of the map. -/
theorem handle_get (srv : Server) {store : Store} {m : KvMap} {k : Key}
    (h : m.Represents (contents store)) (hlen : (Command.get k).text.length ≤ bufSize - 1) :
    srv.handle store (Command.get k).text = (store, ((Command.get k).apply m).2) := by
  have hvalue := kvGet_represents h (Fits.of_get hlen)
  rw [Server.handle, setRequest_get, getRequest_text srv hlen, Command.apply, ← hvalue]
  simp only []
  cases kvGet store k.bytes with
  | some val => rfl
  | none => rfl

/-- A well-formed request changes the table as it changes the map, and gets the
reply of the map. -/
theorem handle_request (srv : Server) {store : Store} {m : KvMap}
    (h : m.Represents (contents store)) (r : Request) :
    (r.command.apply m).1.Represents (contents (srv.handle store r.message.bytes).1) ∧
      (srv.handle store r.message.bytes).2 = (r.command.apply m).2 := by
  have ⟨command, hlen⟩ := r
  cases command with
  | set k v =>
      have ⟨hkey, hvalue⟩ := Fits.of_set hlen
      show (m.set k.bytes v.bytes).Represents
        (contents (srv.handle store (Command.set k v).text).1) ∧
        (srv.handle store (Command.set k v).text).2 = .ok
      rw [handle_set (setRequest_text srv hlen)]
      exact ⟨kvSet_represents h hkey hvalue, rfl⟩
  | get k =>
      have hmap : ((Command.get k).apply m).1 = m := by
        rw [Command.apply]
        cases m.value k.bytes with
        | some text => rfl
        | none => rfl
      show ((Command.get k).apply m).1.Represents
        (contents (srv.handle store (Command.get k).text).1) ∧
        (srv.handle store (Command.get k).text).2 = ((Command.get k).apply m).2
      rw [handle_get srv h hlen, hmap]
      exact ⟨h, rfl⟩

theorem serve_requests {srv : Server} {store : Store} {m : KvMap}
    (h : m.Represents (contents store)) (rs : List Request) :
    (srv.serve store (rs.map Request.message)).2 = repliesOf m rs := by
  induction rs generalizing store m with
  | nil => rfl
  | cons r rs ih =>
      have ⟨hnext, hreply⟩ := handle_request srv h r
      show (srv.handle store r.message.bytes).2 :: _ = (r.command.apply m).2 :: _
      rw [hreply, ih hnext]

/-- Both servers reply to well-formed requests as the map with `MAX_ENTRIES` keys
does, and whatever is sent to them, no key has two entries. -/
theorem serve_refines_map (srv : Server) :
    (∀ rs : List Request,
      (srv.serve [] (rs.map Request.message)).2 = repliesOf BoundedMap.empty rs) ∧
    ∀ msgs : List Message,
      ((srv.serve [] msgs).1.map (fun e => cstr e.key)).Nodup ∧
        (srv.serve [] msgs).1.length ≤ maxEntries := by
  refine ⟨fun rs => serve_requests empty_represents rs, fun msgs => ?_⟩
  have hrep := serve_represents srv empty_represents msgs
  refine ⟨?_, ?_⟩
  · have hnodup := hrep.nodup
    rwa [contents, List.map_map] at hnodup
  · have hle := hrep.length_le
    rwa [contents_length] at hle

/-! ## What the map does not take -/

/-- The entries that are there or can be added. -/
theorem accepts_iff {store : Store} {m : KvMap} {key : Bytes}
    (h : m.Represents (contents store)) (hkey : Fits key) :
    m.Accepts key ↔ kvGet store key ≠ none ∨ store.length < maxEntries := by
  have hvalue := kvGet_represents h hkey
  have hlen : store.length = m.keys.card := by
    rw [← contents_length]
    exact h.length_eq
  rw [BoundedMap.Accepts, ← hvalue, hlen]
  simp

/-- Requests that do not set the key keep its value. -/
theorem foldl_effect_value {srv : Server} {m : KvMap} {key : Bytes} {msgs : List Message}
    (hmsgs : ∀ msg ∈ msgs, ∀ value, srv.setRequest msg.bytes ≠ some (key, value)) :
    (msgs.foldl srv.effect m).value key = m.value key := by
  induction msgs generalizing m with
  | nil => rfl
  | cons msg msgs ih =>
      have hmsg := hmsgs msg List.mem_cons_self
      have hstep : (srv.effect m msg).value key = m.value key := by
        unfold Server.effect
        cases hset : srv.setRequest msg.bytes with
        | none => rfl
        | some kv =>
            apply BoundedMap.set_value_ne
            rintro rfl
            exact hmsg kv.2 hset
      rw [List.foldl_cons, ih (fun m' hm' => hmsgs m' (List.mem_cons_of_mem _ hm')), hstep]

/-- A SET is always answered with `OK`.  A later GET gets the value back, whatever
was requested in between, if and only if the key was there or the table had
room. -/
theorem set_then_get_iff (srv : Server) (pre : List Message) (k : Key) (v : Value)
    (hlen : (Command.set k v).text.length ≤ bufSize - 1) :
    let store := (srv.serve [] pre).1
    let done := srv.handle store (Command.set k v).text
    done.2 = .ok ∧
      ((∀ mid : List Message,
          (∀ msg ∈ mid, ∀ value, srv.setRequest msg.bytes ≠ some (k.bytes, value)) →
          (srv.handle (srv.serve done.1 mid).1 (Command.get k).text).2 = .value v.bytes) ↔
        kvGet store k.bytes ≠ none ∨ store.length < maxEntries) := by
  intro store done
  have hget : (Command.get k).text.length ≤ bufSize - 1 := by
    simp only [Command.text, List.length_append, List.length_cons] at hlen ⊢
    have htag : (ascii "GET").length = (ascii "SET").length := by decide
    omega
  have hpre := serve_represents srv empty_represents pre
  have hset : done = (kvSet store k.bytes v.bytes, .ok) := handle_set (setRequest_text srv hlen)
  have hdone := kvSet_represents hpre (Fits.of_set hlen).1 (Fits.of_set hlen).2
  refine ⟨by rw [hset], ?_⟩
  rw [← accepts_iff hpre (Fits.of_set hlen).1, hset]
  constructor
  · intro hall
    have hreply : (srv.handle (kvSet store k.bytes v.bytes) (Command.get k).text).2 =
        .value v.bytes := hall [] (by simp)
    rw [handle_get srv hdone hget] at hreply
    by_contra hno
    -- the map does not take the key, so that it stays without a value
    have hnone : (pre.foldl srv.effect BoundedMap.empty).value k.bytes = none :=
      not_not.mp (fun hsome => hno (.inl hsome))
    rw [BoundedMap.set_of_not_accepts hno, Command.apply, hnone] at hreply
    cases hreply
  · intro haccepts mid hmid
    have hmap := serve_represents srv hdone mid
    have hvalue := foldl_effect_value (m := (pre.foldl srv.effect BoundedMap.empty).set
      k.bytes v.bytes) hmid
    rw [BoundedMap.set_value haccepts, Function.update_self] at hvalue
    rw [handle_get srv hmap hget, Command.apply, hvalue]

/-- The key `k`. -/
def letterK : Key where
  bytes := ascii "k"
  ne_nil := by decide
  no_space := List.all_iff_forall_prop.mp (by decide)
  no_nul := List.all_iff_forall_prop.mp (by decide)

/-- The value `x`. -/
def letterX : Value where
  bytes := ascii "x"
  ne_nil := by decide
  no_newline := List.all_iff_forall_prop.mp (by decide)
  no_nul := List.all_iff_forall_prop.mp (by decide)
  no_space := by
    intro b h
    cases h
    rfl

/-- The first key of an empty table is found. -/
theorem set_then_get_letterK :
    (Server.handle .modular
      (Server.handle .modular [] (Command.set letterK letterX).text).1
      (Command.get letterK).text).2 = .value (ascii "x") :=
  (set_then_get_iff .modular [] letterK letterX (by decide)).2.mpr (.inr (by decide)) []
    (by simp)

/-- SETs of new keys fill the table in their order. -/
theorem serve_new_keys {srv : Server} {store : Store} {msgs : List Message}
    {kvs : List (Bytes × Bytes)}
    (hset : msgs.map (fun msg => srv.setRequest msg.bytes) = kvs.map some)
    (hnodup : ((contents store ++ kvs).map Prod.fst).Nodup)
    (hroom : store.length + kvs.length ≤ maxEntries) :
    contents (srv.serve store msgs).1 = contents store ++ kvs := by
  induction msgs generalizing store kvs with
  | nil =>
      have hnil : kvs = [] := List.map_eq_nil_iff.mp hset.symm
      rw [hnil, List.append_nil]
      rfl
  | cons msg msgs ih =>
      cases kvs with
      | nil => cases hset
      | cons kv kvs =>
          have ⟨hfirst, hrest⟩ := List.cons.inj hset
          have ⟨hkey, hvalue⟩ := setRequest_fits msg.length_le hfirst
          have hnew : kvSearch store kv.1 = none := by
            rw [kvSearch_eq hkey, List.findIdx?_eq_none_iff]
            intro e he
            have hne : e.1 ≠ kv.1 := by
              intro heq
              rw [List.map_append, List.nodup_append] at hnodup
              exact hnodup.2.2 e.1 (List.mem_map_of_mem he) kv.1 (by simp) heq
            simpa using hne
          have hone : contents (srv.handle store msg.bytes).1 = contents store ++ [kv] := by
            simp only [List.length_cons] at hroom
            rw [handle_set hfirst, kvSet, hnew, contents_append hkey hvalue (by omega)]
          have hsame : contents store ++ kv :: kvs =
              contents (srv.handle store msg.bytes).1 ++ kvs := by
            rw [hone, List.append_assoc]
            rfl
          rw [hsame] at hnodup ⊢
          apply ih hrest hnodup
          have hlen := congrArg List.length hone
          simp only [contents_length, List.length_append, List.length_cons,
            List.length_nil] at hlen hroom
          omega

/-- A key of two digits. -/
def twoDigits (i : Fin 100) : Key where
  bytes := [48 + (i / 10).val.toUInt8, 48 + (i % 10).val.toUInt8]
  ne_nil := List.cons_ne_nil _ _
  no_space := by
    refine List.all_iff_forall_prop.mp ?_
    revert i
    decide
  no_nul := by
    refine List.all_iff_forall_prop.mp ?_
    revert i
    decide

theorem twoDigits_length (i : Fin 100) :
    (Command.set (twoDigits i) letterX).text.length ≤ bufSize - 1 := by
  revert i
  decide

theorem twoDigits_injective : Function.Injective (fun i => (twoDigits i).bytes) := by
  -- the digits give the number back
  have hback : ∀ i, ((twoDigits i).bytes.foldl (fun n b => 10 * n + b.toNat) 0) = i.val + 528 := by
    decide
  intro i j heq
  have hij := (hback i).symm.trans ((congrArg _ heq).trans (hback j))
  exact Fin.ext (by omega)

/-- As many SETs as the table has entries. -/
def fillTable : List Message :=
  (List.finRange 100).map (fun i =>
    Request.message ⟨.set (twoDigits i) letterX, twoDigits_length i⟩)

/-- A SET of one more key is answered with `OK`, and a GET right behind it does
not find the key. -/
def Server.LosesKey (srv : Server) : Prop :=
  let store := (srv.serve [] fillTable).1
  let done := srv.handle store (Command.set letterK letterX).text
  done.2 = .ok ∧ (srv.handle done.1 (Command.get letterK).text).2 = .notFound

theorem losesKey (srv : Server) : srv.LosesKey := by
  unfold Server.LosesKey
  intro store done
  have hfits : Fits letterK.bytes ∧ Fits letterX.bytes :=
    ⟨⟨letterK.no_nul, by decide⟩, ⟨letterX.no_nul, by decide⟩⟩
  have hrep := serve_represents srv empty_represents fillTable
  have htable : contents store =
      [] ++ (List.finRange 100).map (fun i => ((twoDigits i).bytes, letterX.bytes)) := by
    apply serve_new_keys
    · rw [fillTable, List.map_map, List.map_map]
      congr 1
      funext i
      exact setRequest_text srv (twoDigits_length i)
    · rw [contents_nil, List.nil_append, List.map_map]
      exact (List.nodup_finRange 100).map twoDigits_injective
    · decide
  have habsent : kvGet store letterK.bytes = none := by
    have hget := kvGet_eq hfits.1 store
    rw [htable, show List.find? _ _ = none by decide] at hget
    exact Option.map_eq_none_iff.mp hget
  have hfull : ¬ store.length < maxEntries := by
    rw [← contents_length, htable]
    decide
  have hno : ¬ (fillTable.foldl srv.effect BoundedMap.empty).Accepts letterK.bytes := by
    rw [accepts_iff hrep hfits.1]
    exact not_or.mpr ⟨not_not_intro habsent, hfull⟩
  have hdone : done = (kvSet store letterK.bytes letterX.bytes, .ok) :=
    handle_set (setRequest_text srv (by decide))
  have hsame := kvSet_represents hrep hfits.1 hfits.2
  rw [BoundedMap.set_of_not_accepts hno] at hsame
  rw [hdone]
  refine ⟨rfl, ?_⟩
  rw [handle_get srv hsame (by decide), Command.apply, ← kvGet_represents hrep hfits.1,
    show kvGet (srv.serve [] fillTable).1 letterK.bytes = none from habsent]
  rfl

/-- Both servers acknowledge the hundred-and-first key and do not store it. -/
theorem acknowledged_set_lost : Server.LosesKey .keyValue ∧ Server.LosesKey .modular :=
  ⟨losesKey .keyValue, losesKey .modular⟩

end SystemsInC.Ports.KvStore
