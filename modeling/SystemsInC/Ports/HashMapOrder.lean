import SystemsInC.Ports.LockedHashMap

/-!
# The hash map in the order of its locks

A call takes effect while it holds the lock of its bucket, so that the calls on
one bucket happen in the order of its lock.  Calls on different buckets do not
touch each other's keys, and the log, which merges the orders of all buckets,
gives every lookup the value that it reported (`hashmap_linearizable`).
-/

namespace SystemsInC.Ports.HashMapOrder

open SystemsInC.Verified.CString
open SystemsInC.Verified.GuardedRuns
open SystemsInC.Ports.LockedHashMap hiding hash

variable {T : Type*}

/-! ## The invariant -/

/-- The call of a thread that holds a lock. -/
def holding : Pc → Option Call
  | .walking call _ => some call
  | .unlocking call _ => some call
  | _ => none

/-- The call stands in the log behind the operations that it remembers, got its
lock after it began, and no operation on its bucket follows it. -/
structure Placed (log : List Op) (call : Call) : Prop where
  in_log : call.before ++ [call.op] <+: log
  began_le : call.began ≤ call.before.length
  last : ∀ key, LockedHashMap.hash key = LockedHashMap.hash call.op.key →
    lastInsert key log = lastInsert key (call.before ++ [call.op])

/-- What a call has reported. -/
structure Reported (log : List Op) (r : Returned) : Prop where
  in_log : r.call.before ++ [r.call.op] <+: log
  began_le : r.call.began ≤ r.call.before.length
  lt_ended : r.call.before.length < r.ended
  ended_le : r.ended ≤ log.length
  result : ∀ key, r.call.op = .lookup key →
    r.result = some (answer (lastInsert key r.call.before))

/-- The place of a call in the log. -/
def Returned.place (r : Returned) : Nat := r.call.before.length

structure MapInv (s : Sys T) : Prop where
  chain : ∀ b, Chain b (s.buckets b)
  holder : ∀ t call, holding (s.pc t) = some call → s.locks (LockedHashMap.hash call.op.key) = some t
  free : ∀ key, s.locks (LockedHashMap.hash key) = none →
    chainValue (s.buckets (LockedHashMap.hash key)) key = lastInsert key s.log
  placed : ∀ t call, holding (s.pc t) = some call → Placed s.log call
  locking : ∀ t op began, s.pc t = .locking op began → began ≤ s.log.length
  walking : ∀ t call pos, s.pc t = .walking call pos →
    Unseen (s.buckets (LockedHashMap.hash call.op.key)) call.op.key pos ∧
      ∀ key, LockedHashMap.hash key = LockedHashMap.hash call.op.key →
        chainValue (s.buckets (LockedHashMap.hash key)) key = lastInsert key call.before
  unlocking : ∀ t call result, s.pc t = .unlocking call result →
    (∀ key, LockedHashMap.hash key = LockedHashMap.hash call.op.key →
      chainValue (s.buckets (LockedHashMap.hash key)) key = lastInsert key (call.before ++ [call.op])) ∧
      ∀ key, call.op = .lookup key → result = some (answer (lastInsert key call.before))
  returned : ∀ r ∈ s.returned, Reported s.log r
  distinct : (s.returned.map Returned.place).Nodup
  fresh : ∀ t call, holding (s.pc t) = some call →
    call.before.length ∉ s.returned.map Returned.place

theorem MapInv.init : MapInv (Sys.init : Sys T) where
  chain := fun b => Chain.nil b
  holder := fun _ _ h => nomatch h
  free := fun _ _ => rfl
  placed := fun _ _ h => nomatch h
  locking := fun _ _ _ h => nomatch h
  walking := fun _ _ _ h => nomatch h
  unlocking := fun _ _ _ h => nomatch h
  returned := fun _ h => nomatch h
  distinct := List.nodup_nil
  fresh := fun _ _ h => nomatch h

/-- The nodes of two buckets, and two nodes of one bucket, have different keys. -/
theorem MapInv.node_unique {s : Sys T} (inv : MapInv s) {b b' : Fin tableSize} {i j : Nat} {node node' : Node}
    (hi : (s.buckets b)[i]? = some node) (hj : (s.buckets b')[j]? = some node')
    (hkey : strcmpEq node.key node'.key) : b = b' ∧ i = j := by
  have hb : b = b' := by
    rw [← (inv.chain b).hashed node (List.mem_of_getElem? hi),
      ← (inv.chain b').hashed node' (List.mem_of_getElem? hj)]
    exact hash_congr hkey
  subst hb
  refine ⟨rfl, ?_⟩
  have hlt : i < ((s.buckets b).map (fun node => cstr node.key)).length := by
    rw [List.length_map]
    exact (List.getElem?_eq_some_iff.mp hi).1
  apply (List.getElem?_inj hlt (inv.chain b).nodup).mp
  rw [List.getElem?_map, List.getElem?_map, hi, hj]
  exact congrArg some hkey

/-! ## One thread -/

/-- What a thread that holds a lock knows of its call. -/
structure Held (s : Sys T) (u : T) (call : Call) : Prop where
  lock : s.locks (LockedHashMap.hash call.op.key) = some u
  placed : Placed s.log call
  fresh : call.before.length ∉ s.returned.map Returned.place

/-- What the invariant says of a thread, by the place where it is. -/
def AtPc (s : Sys T) (u : T) : Pc → Prop
  | .idle => True
  | .locking _ began => began ≤ s.log.length
  | .walking call pos =>
      Held s u call ∧ Unseen (s.buckets (LockedHashMap.hash call.op.key)) call.op.key pos ∧
        ∀ key, LockedHashMap.hash key = LockedHashMap.hash call.op.key →
          chainValue (s.buckets (LockedHashMap.hash key)) key = lastInsert key call.before
  | .unlocking call result =>
      Held s u call ∧
        (∀ key, LockedHashMap.hash key = LockedHashMap.hash call.op.key →
          chainValue (s.buckets (LockedHashMap.hash key)) key =
            lastInsert key (call.before ++ [call.op])) ∧
        ∀ key, call.op = .lookup key → result = some (answer (lastInsert key call.before))

variable {s s' : Sys T} {t u : T} {pc : Pc} {call : Call}

theorem AtPc.held (h : AtPc s u pc) (hcall : holding pc = some call) : Held s u call := by
  cases pc with
  | idle | locking => cases hcall
  | walking | unlocking =>
      cases hcall
      exact h.1

theorem MapInv.at (inv : MapInv s) (u : T) : AtPc s u (s.pc u) := by
  have hheld : ∀ call, holding (s.pc u) = some call → Held s u call :=
    fun call hcall => ⟨inv.holder u call hcall, inv.placed u call hcall, inv.fresh u call hcall⟩
  cases hpc : s.pc u with
  | idle => trivial
  | locking op began => exact inv.locking u op began hpc
  | walking call pos => exact ⟨hheld call (congrArg holding hpc), inv.walking u call pos hpc⟩
  | unlocking call result =>
      exact ⟨hheld call (congrArg holding hpc), inv.unlocking u call result hpc⟩

theorem MapInv.of_at (chain : ∀ b, Chain b (s.buckets b))
    (free : ∀ key, s.locks (LockedHashMap.hash key) = none →
      chainValue (s.buckets (LockedHashMap.hash key)) key = lastInsert key s.log)
    (returned : ∀ r ∈ s.returned, Reported s.log r)
    (distinct : (s.returned.map Returned.place).Nodup) (hat : ∀ u, AtPc s u (s.pc u)) :
    MapInv s where
  chain := chain
  free := free
  returned := returned
  distinct := distinct
  holder := fun u _ hcall => ((hat u).held hcall).lock
  placed := fun u _ hcall => ((hat u).held hcall).placed
  fresh := fun u _ hcall => ((hat u).held hcall).fresh
  locking := by
    intro u op began hpc
    have h := hat u
    rwa [hpc] at h
  walking := by
    intro u call pos hpc
    have h := hat u
    rw [hpc] at h
    exact h.2
  unlocking := by
    intro u call result hpc
    have h := hat u
    rw [hpc] at h
    exact h.2

/-- A step that leaves the call and the bucket of a thread alone. -/
theorem AtPc.keep (h : AtPc s u pc) (hlog : s.log.length ≤ s'.log.length)
    (hheld : ∀ call, holding pc = some call → Held s u call → Held s' u call)
    (hbucket : ∀ call, holding pc = some call →
      s'.buckets (LockedHashMap.hash call.op.key) = s.buckets (LockedHashMap.hash call.op.key)) :
    AtPc s' u pc := by
  cases pc with
  | idle => trivial
  | locking op began => exact Nat.le_trans h hlog
  | walking call pos =>
      have ⟨held, unseen, hvalues⟩ := h
      refine ⟨hheld call rfl held, ?_, fun key hkey => ?_⟩
      · rw [hbucket call rfl]
        exact unseen
      · rw [hkey, hbucket call rfl, ← hkey]
        exact hvalues key hkey
  | unlocking call result =>
      have ⟨held, hvalues, hresult⟩ := h
      refine ⟨hheld call rfl held, fun key hkey => ?_, hresult⟩
      rw [hkey, hbucket call rfl, ← hkey]
      exact hvalues key hkey

/-- The locks of two threads are those of two buckets. -/
theorem Held.hash_ne {call' : Call} (held : Held s u call') (hu : u ≠ t)
    (ht : s.locks (LockedHashMap.hash call.op.key) = some t) :
    LockedHashMap.hash call'.op.key ≠ LockedHashMap.hash call.op.key := by
  intro heq
  have hlock := held.lock
  rw [heq, ht] at hlock
  exact hu (Option.some.inj hlock).symm

/-! ## What a step does -/

variable [DecidableEq T]

theorem begin_cases {op : Op} (h : s.begin t op = some s') :
    s.pc t = .idle ∧
      s' = { s with pc := Function.update s.pc t (.locking op s.log.length) } := by
  unfold Sys.begin at h
  cases hpc : s.pc t with
  | idle =>
      rw [hpc] at h
      exact ⟨rfl, (Option.some.inj h).symm⟩
  | locking op began => simp [hpc] at h
  | walking call pos => simp [hpc] at h
  | unlocking call result => simp [hpc] at h

theorem lock_cases (h : s.lock t = some s') :
    ∃ op began, s.pc t = .locking op began ∧ s.locks (LockedHashMap.hash op.key) = none ∧
      s' = { s with
        locks := Function.update s.locks (LockedHashMap.hash op.key) (some t)
        pc := Function.update s.pc t
          (.walking { op := op, began := began, before := s.log } 0)
        log := s.log ++ [op] } := by
  unfold Sys.lock at h
  cases hpc : s.pc t with
  | locking op began =>
      rw [hpc] at h
      cases hlock : s.locks (LockedHashMap.hash op.key) with
      | none =>
          simp only [hlock] at h
          exact ⟨op, began, rfl, hlock, (Option.some.inj h).symm⟩
      | some u => simp [hlock] at h
  | idle => simp [hpc] at h
  | walking call pos => simp [hpc] at h
  | unlocking call result => simp [hpc] at h

theorem walk_cases (h : s.walk t = some s') :
    ∃ call pos, s.pc t = .walking call pos ∧
      (visit (s.buckets (LockedHashMap.hash call.op.key)) call.op pos = .next ∧
          s' = { s with pc := Function.update s.pc t (.walking call (pos + 1)) } ∨
        ∃ nodes result, visit (s.buckets (LockedHashMap.hash call.op.key)) call.op pos = .done nodes result ∧
          s' = { s with
            buckets := Function.update s.buckets (LockedHashMap.hash call.op.key) nodes
            pc := Function.update s.pc t (.unlocking call result) }) := by
  unfold Sys.walk at h
  cases hpc : s.pc t with
  | walking call pos =>
      rw [hpc] at h
      refine ⟨call, pos, rfl, ?_⟩
      cases hvisit : visit (s.buckets (LockedHashMap.hash call.op.key)) call.op pos with
      | next =>
          simp only [hvisit] at h
          exact .inl ⟨rfl, (Option.some.inj h).symm⟩
      | done nodes result =>
          simp only [hvisit] at h
          exact .inr ⟨nodes, result, rfl, (Option.some.inj h).symm⟩
  | idle => simp [hpc] at h
  | locking op began => simp [hpc] at h
  | unlocking call result => simp [hpc] at h

theorem unlock_cases (h : s.unlock t = some s') :
    ∃ call result, s.pc t = .unlocking call result ∧
      s' = { s with
        locks := Function.update s.locks (LockedHashMap.hash call.op.key) none
        pc := Function.update s.pc t .idle
        returned := s.returned ++
          [{ call := call, result := result, ended := s.log.length }] } := by
  unfold Sys.unlock at h
  cases hpc : s.pc t with
  | unlocking call result =>
      rw [hpc] at h
      exact ⟨call, result, rfl, (Option.some.inj h).symm⟩
  | idle => simp [hpc] at h
  | locking op began => simp [hpc] at h
  | walking call pos => simp [hpc] at h

/-! ## The invariant is kept -/

/-- The thread of a step, and the others, which are where they were. -/
theorem at_update (hself : AtPc s' t pc) (hother : ∀ u ≠ t, AtPc s' u (s.pc u)) (u : T) :
    AtPc s' u (Function.update s.pc t pc u) := by
  by_cases hu : u = t
  · subst hu
    rwa [Function.update_self]
  · rw [Function.update_of_ne hu]
    exact hother u hu

theorem MapInv.begin {op : Op} (inv : MapInv s) (h : s.begin t op = some s') : MapInv s' := by
  have ⟨_, heq⟩ := begin_cases h
  subst heq
  refine .of_at inv.chain inv.free inv.returned inv.distinct (at_update (Nat.le_refl _) ?_)
  intro u _
  exact (inv.at u).keep (Nat.le_refl _)
    (fun _ _ held => ⟨held.lock, held.placed, held.fresh⟩) (fun _ _ => rfl)

/-- An operation on another bucket joins the log. -/
theorem Placed.concat {log : List Op} {call : Call} {op : Op} (placed : Placed log call)
    (hne : LockedHashMap.hash op.key ≠ LockedHashMap.hash call.op.key) :
    Placed (log ++ [op]) call where
  in_log := placed.in_log.trans (List.prefix_append _ _)
  began_le := placed.began_le
  last := by
    intro key hkey
    rw [lastInsert_concat, effect_of_hash_ne (hkey ▸ hne)]
    exact placed.last key hkey

/-- The calls in one place of the log have one operation. -/
theorem placed_op {log : List Op} {call call' : Call} (h : call.before ++ [call.op] <+: log)
    (h' : call'.before ++ [call'.op] <+: log) (hlen : call.before.length = call'.before.length) :
    call.op = call'.op := by
  have hget : ∀ {c : Call}, c.before ++ [c.op] <+: log → log[c.before.length]? = some c.op := by
    rintro c ⟨rest, rfl⟩
    simp
  have heq := (hget h).symm.trans (hlen ▸ hget h')
  exact Option.some.inj heq

theorem Reported.concat {log : List Op} {r : Returned} {op : Op} (reported : Reported log r) :
    Reported (log ++ [op]) r :=
  { reported with
    in_log := reported.in_log.trans (List.prefix_append _ _)
    ended_le := by
      have hle := reported.ended_le
      rw [List.length_append]
      omega }

theorem MapInv.lock (inv : MapInv s) (h : s.lock t = some s') : MapInv s' := by
  have ⟨op, began, hpc, hfree, heq⟩ := lock_cases h
  subst heq
  refine .of_at inv.chain (fun key hkey => ?_) (fun r hr => (inv.returned r hr).concat)
    inv.distinct (at_update ⟨⟨?_, ?_, ?_⟩, ?_, ?_⟩ (fun u _ => ?_))
  · have hne : LockedHashMap.hash op.key ≠ LockedHashMap.hash key := by
      intro heq
      have hkey : Function.update s.locks (LockedHashMap.hash op.key) (some t)
        (LockedHashMap.hash key) = none := hkey
      rw [heq, Function.update_self] at hkey
      cases hkey
    have hkey : s.locks (LockedHashMap.hash key) = none := by
      rw [← hkey]
      exact (Function.update_of_ne hne.symm _ _).symm
    show chainValue _ key = lastInsert key (s.log ++ [op])
    rw [lastInsert_concat, effect_of_hash_ne hne]
    exact inv.free key hkey
  · exact Function.update_self _ _ _
  · exact ⟨List.prefix_rfl, inv.locking t op began hpc, fun _ _ => rfl⟩
  · -- the calls that returned stand in the log already
    intro hmem
    have ⟨r, hr, hplace⟩ := List.mem_map.mp hmem
    have reported := inv.returned r hr
    have hlt : r.call.before.length < s.log.length :=
      Nat.lt_of_lt_of_le reported.lt_ended reported.ended_le
    exact absurd hplace (Nat.ne_of_lt hlt)
  · intro node hnode
    cases hnode
  · intro key hkey
    apply inv.free
    rw [hkey]
    exact hfree
  · have hlog : s.log.length ≤ (s.log ++ [op]).length := by
      rw [List.length_append]
      omega
    refine (inv.at u).keep hlog (fun call _ held => ?_) (fun _ _ => rfl)
    -- a thread that holds a lock has another bucket
    have hne : LockedHashMap.hash call.op.key ≠ LockedHashMap.hash op.key := by
      intro heq
      have hlock := held.lock
      rw [heq, hfree] at hlock
      cases hlock
    refine ⟨?_, held.placed.concat hne.symm, held.fresh⟩
    exact (Function.update_of_ne hne _ _).trans held.lock

theorem MapInv.walkOn {pos : Nat} (inv : MapInv s) (hpc : s.pc t = .walking call pos)
    (hvisit : visit (s.buckets (LockedHashMap.hash call.op.key)) call.op pos = .next) :
    MapInv { s with pc := Function.update s.pc t (.walking call (pos + 1)) } := by
  have ⟨held, unseen, hvalues⟩ : AtPc s t (.walking call pos) := hpc ▸ inv.at t
  have hself : AtPc { s with pc := Function.update s.pc t (.walking call (pos + 1)) } t
      (.walking call (pos + 1)) :=
    ⟨⟨held.lock, held.placed, held.fresh⟩, visit_next unseen hvisit, hvalues⟩
  refine .of_at inv.chain inv.free inv.returned inv.distinct (at_update hself ?_)
  intro u _
  exact (inv.at u).keep (Nat.le_refl _)
    (fun _ _ held => ⟨held.lock, held.placed, held.fresh⟩) (fun _ _ => rfl)

theorem MapInv.walkEnd {pos : Nat} {nodes : List Node} {result : Option Result}
    (inv : MapInv s) (hpc : s.pc t = .walking call pos)
    (hvisit : visit (s.buckets (LockedHashMap.hash call.op.key)) call.op pos =
      .done nodes result) :
    MapInv { s with
      buckets := Function.update s.buckets (LockedHashMap.hash call.op.key) nodes
      pc := Function.update s.pc t (.unlocking call result) } := by
  have ⟨held, unseen, hvalues⟩ : AtPc s t (.walking call pos) := hpc ▸ inv.at t
  have ⟨hchain, heffect, hresult⟩ := visit_done (inv.chain _) rfl unseen hvisit
  -- the other buckets keep their chains
  have hbucket : ∀ b, b ≠ LockedHashMap.hash call.op.key →
      Function.update s.buckets (LockedHashMap.hash call.op.key) nodes b = s.buckets b :=
    fun b hb => Function.update_of_ne hb _ _
  refine .of_at (fun b => ?_) (fun key hkey => ?_) inv.returned inv.distinct
    (at_update ⟨⟨held.lock, held.placed, held.fresh⟩, fun key hkey => ?_, fun key hop => ?_⟩
      (fun u hu => ?_))
  · by_cases hb : b = LockedHashMap.hash call.op.key
    · rw [hb]
      show Chain _ (Function.update s.buckets _ nodes _)
      rw [Function.update_self]
      exact hchain
    · show Chain b (Function.update s.buckets _ nodes b)
      rw [hbucket b hb]
      exact inv.chain b
  · have hne : LockedHashMap.hash key ≠ LockedHashMap.hash call.op.key := by
      intro heq
      have hkey : s.locks (LockedHashMap.hash key) = none := hkey
      rw [heq, held.lock] at hkey
      cases hkey
    show chainValue (Function.update s.buckets _ nodes _) key = _
    rw [hbucket _ hne]
    exact inv.free key hkey
  · show chainValue (Function.update s.buckets _ nodes _) key = _
    rw [hkey, Function.update_self, heffect, lastInsert_concat, ← hvalues key hkey, hkey]
  · have hkey : LockedHashMap.hash key = LockedHashMap.hash call.op.key := by
      rw [hop]
      rfl
    rw [hresult key hop, ← hkey, hvalues key hkey]
  · refine (inv.at u).keep (Nat.le_refl _)
      (fun _ _ held' => ⟨held'.lock, held'.placed, held'.fresh⟩) (fun call' hcall => ?_)
    exact hbucket _ (((inv.at u).held hcall).hash_ne hu held.lock)

theorem MapInv.unlock (inv : MapInv s) (h : s.unlock t = some s') : MapInv s' := by
  have ⟨call, result, hpc, heq⟩ := unlock_cases h
  subst heq
  have ⟨held, hvalues, hresult⟩ : AtPc s t (.unlocking call result) := hpc ▸ inv.at t
  refine .of_at inv.chain (fun key hkey => ?_) (fun r hr => ?_) ?_
    (at_update ?_ (fun u hu => ?_))
  · by_cases hsame : LockedHashMap.hash key = LockedHashMap.hash call.op.key
    · show chainValue _ key = lastInsert key s.log
      rw [hvalues key hsame, held.placed.last key hsame]
    · apply inv.free key
      rw [← hkey]
      exact (Function.update_of_ne hsame _ _).symm
  · rcases List.mem_append.mp hr with hold | hnew
    · exact inv.returned r hold
    · rw [List.mem_singleton.mp hnew]
      have hlen := held.placed.in_log.length_le
      rw [List.length_append] at hlen
      exact ⟨held.placed.in_log, held.placed.began_le, hlen, Nat.le_refl _, hresult⟩
  · show (List.map Returned.place (s.returned ++ [_])).Nodup
    rw [List.map_append, List.nodup_append]
    refine ⟨inv.distinct, List.nodup_singleton _, fun p hp q hq heq => ?_⟩
    have hplace : p = call.before.length := heq.trans (List.mem_singleton.mp hq)
    exact held.fresh (hplace ▸ hp)
  · trivial
  · refine (inv.at u).keep (Nat.le_refl _) (fun call' _ held' => ?_) (fun _ _ => rfl)
    have hne := held'.hash_ne hu held.lock
    refine ⟨(Function.update_of_ne hne _ _).trans held'.lock, held'.placed, ?_⟩
    show _ ∉ List.map Returned.place (s.returned ++ [_])
    rw [List.map_append, List.mem_append]
    rintro (hmem | hmem)
    · exact held'.fresh hmem
    · -- the operation in one place of the log is on one bucket
      have hplace : call'.before.length = call.before.length := List.mem_singleton.mp hmem
      have hop : call'.op = call.op := placed_op held'.placed.in_log held.placed.in_log hplace
      exact hne (congrArg (fun op => LockedHashMap.hash op.key) hop)

theorem MapInv.step {a : Act T} (inv : MapInv s) (h : s.step a = some s') : MapInv s' := by
  cases a with
  | begin t op => exact inv.begin h
  | lock t => exact inv.lock h
  | walk t =>
      have ⟨call, pos, hpc, hcases⟩ := walk_cases h
      rcases hcases with ⟨hvisit, heq⟩ | ⟨nodes, result, hvisit, heq⟩
      · exact heq ▸ inv.walkOn hpc hvisit
      · exact heq ▸ inv.walkEnd hpc hvisit
  | unlock t => exact inv.unlock h

/-- Whatever the threads call and however their steps interleave: a node is in
the bucket of its key, no key has two nodes, a bucket that is not locked has the
last insert of each of its keys, and every call that returned has a place of its
own in the log, between its begin and its end, and there a lookup reports the
last insert of its key before it. -/
theorem hashmap_linearizable (s : Sys T)
    (h : Reach Sys.step (fun _ _ => True) Sys.init s) :
    (∀ b, ∀ node ∈ s.buckets b, LockedHashMap.hash node.key = b) ∧
    (∀ b b' (i j : Nat) node node', (s.buckets b)[i]? = some node → (s.buckets b')[j]? = some node' →
      strcmpEq node.key node'.key → b = b' ∧ i = j) ∧
    (∀ key, s.locks (LockedHashMap.hash key) = none →
      chainValue (s.buckets (LockedHashMap.hash key)) key = lastInsert key s.log) ∧
    (s.returned.map (fun r => r.call.before.length)).Nodup ∧
    ∀ r ∈ s.returned, r.call.before ++ [r.call.op] <+: s.log ∧
      r.call.began ≤ r.call.before.length ∧ r.call.before.length < r.ended ∧
      ∀ key, r.call.op = .lookup key →
        r.result = some (answer (lastInsert key r.call.before)) := by
  have inv : MapInv s := h.keeps MapInv.init (fun _ _ _ inv _ hs => inv.step hs)
  refine ⟨fun b => (inv.chain b).hashed, ?_, inv.free, inv.distinct, fun r hr => ?_⟩
  · exact fun _ _ _ _ _ _ hi hj hkey => inv.node_unique hi hj hkey
  · have reported := inv.returned r hr
    exact ⟨reported.in_log, reported.began_le, reported.lt_ended, reported.result⟩

/-- A lookup waits for the lock of an insert of its key, and reports its value. -/
theorem hashmap_linearizable_twoThreads :
    ∃ s : Sys Bool, Reach Sys.step (fun _ _ => True) Sys.init s ∧
      s.returned.map Returned.result = [none, some { found := 1, value := 5 }] ∧
      (s.returned.map (fun r => r.call.before.length)).Nodup := by
  have hrun : run Sys.step (Sys.init : Sys Bool)
      [.begin false (.insert [107] 5), .begin true (.lookup [107]), .lock false, .walk false,
        .unlock false, .lock true, .walk true, .unlock true] = some _ := rfl
  have hreach := Reach.of_run hrun
  exact ⟨_, hreach, rfl, (hashmap_linearizable _ hreach).2.2.2.1⟩

end SystemsInC.Ports.HashMapOrder
