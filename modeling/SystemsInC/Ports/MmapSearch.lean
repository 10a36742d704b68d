import Mathlib.Data.List.Infix
import Mathlib.Data.List.Sort
import SystemsInC.Verified.CString
import SystemsInC.Verified.MachineInt

/-!
# Keyword search in a mapped file

`Mmap-file-search.c` keeps the size of the file and the length of the keyword in two
`int`s and compares `i + keyword_len` with `file_size` as `size_t`s.  Both `int`s wrap:
a size of 2 GiB or more is searched in part, as empty or beyond its end.

`searchLoop_spec` says what the loop does for every pair of `int`s with a positive
keyword length: it looks at the first places of what is mapped and then ends or leaves
the file.  `search_exact_iff` says for which files and keywords the program reports the
occurrences; below 2 GiB it does, `searchable_of_isInt`.
-/

namespace SystemsInC.Ports.MmapSearch

open SystemsInC.Verified.CString
open SystemsInC.Verified.MachineInt

/-- A file; its size is an `off_t`. -/
structure File where
  content : Bytes
  isOff : content.length < 2 ^ 63

/-- How a search ends. -/
inductive Outcome
  /-- "Keyword must not be empty." -/
  | emptyKeyword
  /-- "Empty file." -/
  | emptyFile
  /-- the offsets as they are printed, and the total -/
  | done (offsets : List Nat) (total : Nat)
  /-- `memcmp` from `base + i` on leaves what is mapped of the file, or the keyword -/
  | outside (i : Nat)
  deriving DecidableEq

/-- `memcmp(base + i, keyword, n) == 0`; the keyword has a NUL behind it. -/
def memcmp (base keyword : Bytes) (i n : Nat) : Option Bool :=
  if i + n ≤ base.length ∧ n ≤ keyword.length + 1 then
    some ((base.drop i).take n == (keyword ++ [0]).take n)
  else
    none

/-- The search loop; `offsets` has been printed. -/
def searchLoop (base keyword : Bytes) (file_size keyword_len : Int) :
    Nat → Nat → List Nat → Nat → Option Outcome
  | 0, _, _, _ => none
  | fuel + 1, i, offsets, count =>
      if (i + toSize keyword_len) % 2 ^ 64 ≤ toSize file_size then
        match memcmp base keyword i (toSize keyword_len) with
        | none => some (.outside i)
        | some true =>
            searchLoop base keyword file_size keyword_len fuel ((i + 1) % 2 ^ 64)
              (offsets ++ [i]) ((count + 1) % 2 ^ 64)
        | some false =>
            searchLoop base keyword file_size keyword_len fuel ((i + 1) % 2 ^ 64) offsets count
      else
        some (.done offsets count)

/-- `main` behind the test of `argc`, for a file that can be opened and mapped. -/
def search (file : File) (keyword : Bytes) : Option Outcome :=
  let keyword_len := toInt keyword.length
  if keyword_len = 0 then
    some .emptyKeyword
  else
    let file_size := toInt file.content.length
    if file_size = 0 then
      some .emptyFile
    else
      -- what the mapping shows of the file
      let base := file.content.take (toSize file_size)
      searchLoop base keyword file_size keyword_len (file.content.length + 2) 0 [] 0

/-! ## Occurrences -/

/-- The offsets of the keyword, in increasing order. -/
def occurrences (file keyword : Bytes) : List Nat :=
  (List.range file.length).filter (fun i => decide (keyword <+: file.drop i))

/-- The report of a search says where the keyword occurs, and how often. -/
def Exact (file keyword : Bytes) : Outcome → Prop
  | .emptyKeyword => False
  | .emptyFile => file = []
  | .done offsets total => offsets = occurrences file keyword ∧ total = offsets.length
  | .outside _ => False

theorem lt_of_occurs {file keyword : Bytes} {i : Nat} (hne : keyword ≠ [])
    (h : keyword <+: file.drop i) : i + keyword.length ≤ file.length := by
  have hlen := h.length_le
  have hpos := List.length_pos_iff.mpr hne
  rw [List.length_drop] at hlen
  omega

theorem mem_occurrences_iff {file keyword : Bytes} (hne : keyword ≠ []) {i : Nat} :
    i ∈ occurrences file keyword ↔ keyword <+: file.drop i := by
  rw [occurrences, List.mem_filter, List.mem_range, decide_eq_true_eq]
  constructor
  · exact fun h => h.2
  · intro h
    have hle := lt_of_occurs hne h
    have hpos := List.length_pos_iff.mpr hne
    exact ⟨by omega, h⟩

theorem pairwise_filter_range (n : Nat) (p : Nat → Bool) :
    ((List.range n).filter p).Pairwise (· < ·) :=
  List.pairwise_lt_range.filter _

/-! ## The loop -/

section Loop

variable {base keyword : Bytes} {file_size keyword_len : Int}

/-- Where the loop finds the first `n` bytes of the keyword. -/
def hits (base keyword : Bytes) (n e : Nat) : List Nat :=
  (List.range e).filter (fun i => decide (keyword.take n <+: base.drop i))

theorem hits_succ (base keyword : Bytes) (n e : Nat) :
    hits base keyword n (e + 1) =
      if keyword.take n <+: base.drop e then hits base keyword n e ++ [e]
      else hits base keyword n e := by
  rw [hits, List.range_succ, List.filter_append, List.filter_singleton]
  by_cases h : keyword.take n <+: base.drop e
  · rw [if_pos h, decide_eq_true h]
    rfl
  · rw [if_neg h, decide_eq_false h, cond_false, List.append_nil, hits]

theorem length_hits_le (base keyword : Bytes) (n e : Nat) :
    (hits base keyword n e).length ≤ e := by
  have hfilter := List.length_filter_le
    (fun i => decide (keyword.take n <+: base.drop i)) (List.range e)
  rwa [List.length_range] at hfilter

theorem memcmp_eq {i n : Nat} (hbase : i + n ≤ base.length) (hkeyword : n ≤ keyword.length) :
    memcmp base keyword i n = some (decide (keyword.take n <+: base.drop i)) := by
  have hlen : (keyword.take n).length = n := by
    rw [List.length_take]
    omega
  have htake : (keyword ++ [0]).take n = keyword.take n := List.take_append_of_le_length hkeyword
  rw [memcmp, if_pos ⟨hbase, by omega⟩, htake]
  congr 1
  rw [Bool.eq_iff_iff, beq_iff_eq, decide_eq_true_eq, List.prefix_iff_eq_take, hlen]
  exact eq_comm

/-- One turn inside what is mapped. -/
theorem searchLoop_step {n i : Nat} (hn : toSize keyword_len = n) (hkeyword : n ≤ keyword.length)
    (hbase : i + n ≤ base.length) (hsize : i + n ≤ toSize file_size)
    (hoff : base.length < 2 ^ 63) (hpos : 0 < n) (fuel : Nat) :
    searchLoop base keyword file_size keyword_len (fuel + 1) i (hits base keyword n i)
        (hits base keyword n i).length =
      searchLoop base keyword file_size keyword_len fuel (i + 1) (hits base keyword n (i + 1))
        (hits base keyword n (i + 1)).length := by
  have hcount := length_hits_le base keyword n i
  have hwrap : (i + n) % 2 ^ 64 = i + n := Nat.mod_eq_of_lt (by omega)
  have hnext : (i + 1) % 2 ^ 64 = i + 1 := Nat.mod_eq_of_lt (by omega)
  have hcount' : ((hits base keyword n i).length + 1) % 2 ^ 64 =
      (hits base keyword n i).length + 1 := Nat.mod_eq_of_lt (by omega)
  rw [searchLoop, hn, hwrap, if_pos hsize, memcmp_eq hbase hkeyword, hits_succ, hnext, hcount']
  by_cases h : keyword.take n <+: base.drop i
  · rw [decide_eq_true h, if_pos h, List.length_append, List.length_singleton]
  · rw [decide_eq_false h, if_neg h]

/-- The loop looks at every place of what is mapped. -/
theorem searchLoop_run {n : Nat} (hn : toSize keyword_len = n) (hkeyword : n ≤ keyword.length)
    (hsize : base.length ≤ toSize file_size) (hoff : base.length < 2 ^ 63) (hpos : 0 < n)
    {e : Nat} (he : e + n ≤ base.length + 1 ∨ e = 0) (fuel : Nat) :
    searchLoop base keyword file_size keyword_len (fuel + e) 0 [] 0 =
      searchLoop base keyword file_size keyword_len fuel e (hits base keyword n e)
        (hits base keyword n e).length := by
  induction e generalizing fuel with
  | zero => rfl
  | succ e ih =>
      have hin : e + n ≤ base.length := by omega
      have hrun := ih (.inl (by omega)) (fuel + 1)
      have hshift : fuel + 1 + e = fuel + (e + 1) := by omega
      rw [hshift] at hrun
      rw [hrun]
      exact searchLoop_step hn hkeyword hin (by omega) hoff hpos fuel

/-- **The loop.**  With a positive keyword length it finds the first `n` bytes of the keyword
wherever they fit, and then ends if `file_size` is not more than what is mapped. -/
theorem searchLoop_spec {n : Nat} (hn : toSize keyword_len = n) (hkeyword : n ≤ keyword.length)
    (hsize : base.length ≤ toSize file_size) (hoff : base.length < 2 ^ 63) (hpos : 0 < n)
    (hlt : n < 2 ^ 31) {fuel : Nat} (hfuel : base.length + 2 ≤ fuel) :
    searchLoop base keyword file_size keyword_len fuel 0 [] 0 =
      if max (base.length + 1) n ≤ toSize file_size then some (.outside (base.length + 1 - n))
      else some (.done (hits base keyword n (base.length + 1 - n))
        (hits base keyword n (base.length + 1 - n)).length) := by
  have ⟨fuel', hfuel'⟩ : ∃ m, fuel = m + 1 + (base.length + 1 - n) :=
    ⟨fuel - 1 - (base.length + 1 - n), by omega⟩
  have hwrap : (base.length + 1 - n + n) % 2 ^ 64 = max (base.length + 1) n := by
    rw [Nat.mod_eq_of_lt (by omega)]
    omega
  have hout : memcmp base keyword (base.length + 1 - n) n = none := by
    rw [memcmp, if_neg (by omega)]
  rw [hfuel', searchLoop_run hn hkeyword hsize hoff hpos (by omega), searchLoop, hn, hwrap, hout]

end Loop

/-! ## The search -/

section Search

variable {file : File} {keyword : Bytes}

theorem search_eq_loop (hlen : toInt keyword.length ≠ 0) (hsize : toInt file.content.length ≠ 0) :
    search file keyword =
      searchLoop (file.content.take (toSize (toInt file.content.length))) keyword
        (toInt file.content.length) (toInt keyword.length) (file.content.length + 2) 0 [] 0 := by
  simp only [search, if_neg hlen, if_neg hsize]

/-- A positive size: the beginning of the file is searched for the beginning of the keyword. -/
theorem search_positive {n m : Nat} (hn : toInt keyword.length = n)
    (hm : toInt file.content.length = m) (hnpos : 0 < n) (hmpos : 0 < m) :
    search file keyword =
      some (.done (hits (file.content.take m) keyword n (m + 1 - n))
        (hits (file.content.take m) keyword n (m + 1 - n)).length) := by
  have hnint := toInt_isInt keyword.length
  have hmint := toInt_isInt file.content.length
  have hnle := toInt_le (n := keyword.length) (by omega)
  have hmle := toInt_le (n := file.content.length) (by omega)
  have hnsize := toSize_of_nonneg hnint (by omega)
  have hmsize := toSize_of_nonneg hmint (by omega)
  have hoff := file.isOff
  have hm' : toSize (toInt file.content.length) = m := by omega
  have hlength : (file.content.take m).length = m := by
    rw [List.length_take]
    omega
  unfold IsInt at hnint
  rw [search_eq_loop (by omega) (by omega), hm',
    searchLoop_spec (n := n) (by omega) (by omega) (by omega) (by omega) hnpos (by omega)
      (by omega), hlength, hm', if_neg (by omega)]

/-- A size that has become negative: the search leaves the file. -/
theorem search_negative (hlen : 0 < toInt keyword.length)
    (hsize : toInt file.content.length < 0) :
    ∃ i, search file keyword = some (.outside i) := by
  have hnint := toInt_isInt keyword.length
  have hmint := toInt_isInt file.content.length
  have hnle := toInt_le hlen
  have ⟨n, hn⟩ : ∃ n : Nat, toInt keyword.length = n :=
    ⟨(toInt keyword.length).toNat, by omega⟩
  have hnsize := toSize_of_nonneg hnint (by omega)
  have hmsize := toSize_of_neg hmint hsize
  have hoff := file.isOff
  unfold IsInt at hnint hmint
  have hall : file.content.take (toSize (toInt file.content.length)) = file.content :=
    List.take_of_length_le (by omega)
  refine ⟨file.content.length + 1 - n, ?_⟩
  rw [search_eq_loop (by omega) (by omega), hall,
    searchLoop_spec (n := n) (by omega) (by omega) (by omega) (by omega) (by omega) (by omega)
      (by omega), if_pos (by omega)]

/-- A keyword length that has become negative is beyond every size but a more negative one. -/
theorem search_negative_keyword (hlen : toInt keyword.length < 0)
    (hsize : toInt file.content.length ≠ 0) :
    search file keyword =
      if 0 < toInt file.content.length ∨ toInt file.content.length < toInt keyword.length then
        some (.done [] 0)
      else
        some (.outside 0) := by
  have hnint := toInt_isInt keyword.length
  have hmint := toInt_isInt file.content.length
  have hnsize := toSize_of_neg hnint hlen
  have hoff := file.isOff
  have htest : (0 + toSize (toInt keyword.length)) % 2 ^ 64 = toSize (toInt keyword.length) := by
    rw [Nat.zero_add, Nat.mod_eq_of_lt (by omega)]
  rw [search_eq_loop (by omega) hsize, searchLoop, htest]
  by_cases hpos : 0 < toInt file.content.length
  · have hmsize := toSize_of_nonneg hmint (by omega)
    unfold IsInt at hnint hmint
    rw [if_neg (by omega), if_pos (.inl hpos)]
  · have hmsize := toSize_of_neg hmint (by omega)
    unfold IsInt at hnint hmint
    by_cases hlow : toInt file.content.length < toInt keyword.length
    · rw [if_neg (by omega), if_pos (.inr hlow)]
    · have hout : memcmp (file.content.take (toSize (toInt file.content.length))) keyword 0
          (toSize (toInt keyword.length)) = none := by
        rw [memcmp, if_neg]
        rw [List.length_take]
        omega
      rw [if_pos (by omega), hout, if_neg (by omega)]

/-! ## When the report is exact -/

/-- The first `keyword_len` bytes of the keyword within the first `file_size` bytes of the file
tell where the keyword occurs in the file. -/
structure Tells (file keyword : Bytes) (file_size keyword_len : Int) : Prop where
  whole : ∀ i : Nat, i + keyword_len ≤ file_size →
    keyword.take keyword_len.toNat <+: file.drop i → keyword <+: file.drop i
  within : ∀ i : Nat, keyword <+: file.drop i → i + keyword_len ≤ file_size

/-- What the search needs of the file and the keyword. -/
def Searchable (file keyword : Bytes) : Prop :=
  toInt keyword.length ≠ 0 ∧
    (file = [] ∨
      (0 < toInt keyword.length ∧ 0 < toInt file.length ∧
        Tells file keyword (toInt file.length) (toInt keyword.length)) ∨
      (toInt keyword.length < 0 ∧ toInt file.length ≠ 0 ∧
        (0 < toInt file.length ∨ toInt file.length < toInt keyword.length) ∧
        ∀ i, ¬ keyword <+: file.drop i))

theorem mem_hits_iff {content : Bytes} {n m i : Nat} (hn : n ≤ keyword.length) (hpos : 0 < n) :
    i ∈ hits (content.take m) keyword n (m + 1 - n) ↔
      i + n ≤ m ∧ keyword.take n <+: content.drop i := by
  have hlen : (keyword.take n).length = n := by
    rw [List.length_take]
    omega
  rw [hits, List.mem_filter, List.mem_range, decide_eq_true_eq, List.drop_take,
    List.prefix_take_iff, hlen]
  constructor
  · intro ⟨hlt, hoccurs, _⟩
    exact ⟨by omega, hoccurs⟩
  · intro ⟨hle, hoccurs⟩
    exact ⟨by omega, hoccurs, by omega⟩

theorem hits_eq_occurrences_iff {content : Bytes} {n m : Nat} (hn : n ≤ keyword.length)
    (hpos : 0 < n) :
    hits (content.take m) keyword n (m + 1 - n) = occurrences content keyword ↔
      Tells content keyword m n := by
  have hne : keyword ≠ [] := List.length_pos_iff.mp (by omega)
  constructor
  · intro heq
    refine ⟨fun i hi htake => ?_, fun i hoccurs => ?_⟩
    · rw [Int.toNat_natCast] at htake
      have hle : i + n ≤ m := by omega
      have hmem := (mem_hits_iff hn hpos).mpr ⟨hle, htake⟩
      rw [heq] at hmem
      exact (mem_occurrences_iff hne).mp hmem
    · have hmem := (mem_occurrences_iff hne).mpr hoccurs
      rw [← heq] at hmem
      have hle := ((mem_hits_iff hn hpos).mp hmem).1
      omega
  · intro htells
    refine (pairwise_filter_range _ _).eq_of_mem_iff (pairwise_filter_range _ _) (fun i => ?_)
    show i ∈ hits _ _ _ _ ↔ i ∈ occurrences _ _
    rw [mem_hits_iff hn hpos, mem_occurrences_iff hne]
    constructor
    · intro ⟨hi, htake⟩
      exact htells.whole i (by omega) (by rwa [Int.toNat_natCast])
    · intro hoccurs
      have hle := htells.within i hoccurs
      exact ⟨by omega, (List.take_prefix n keyword).trans hoccurs⟩

theorem occurrences_eq_nil_iff {content : Bytes} (hne : keyword ≠ []) :
    occurrences content keyword = [] ↔ ∀ i, ¬ keyword <+: content.drop i := by
  rw [List.eq_nil_iff_forall_not_mem]
  exact forall_congr' (fun i => not_congr (mem_occurrences_iff hne))

/-- A search with one outcome. -/
theorem exact_of_search {out : Outcome} (h : search file keyword = some out) :
    (∃ out, search file keyword = some out ∧ Exact file.content keyword out) ↔
      Exact file.content keyword out := by
  constructor
  · intro ⟨out', hout', hexact⟩
    have heq : out' = out := Option.some.inj (hout'.symm.trans h)
    exact heq ▸ hexact
  · exact fun hexact => ⟨out, h, hexact⟩

theorem ne_nil_of_toInt {content : Bytes} (h : toInt content.length ≠ 0) : content ≠ [] := by
  intro heq
  rw [heq] at h
  exact h rfl

theorem searchable_iff_of_pos (hlen : 0 < toInt keyword.length)
    (hsize : toInt file.content.length ≠ 0) :
    Searchable file.content keyword ↔
      0 < toInt file.content.length ∧
        Tells file.content keyword (toInt file.content.length) (toInt keyword.length) := by
  have hne := ne_nil_of_toInt hsize
  constructor
  · intro ⟨_, h⟩
    rcases h with h | h | h
    · exact absurd h hne
    · exact h.2
    · omega
  · intro h
    exact ⟨by omega, .inr (.inl ⟨hlen, h⟩)⟩

theorem searchable_iff_of_neg (hlen : toInt keyword.length < 0)
    (hsize : toInt file.content.length ≠ 0) :
    Searchable file.content keyword ↔
      (0 < toInt file.content.length ∨ toInt file.content.length < toInt keyword.length) ∧
        ∀ i, ¬ keyword <+: file.content.drop i := by
  have hne := ne_nil_of_toInt hsize
  constructor
  · intro ⟨_, h⟩
    rcases h with h | h | h
    · exact absurd h hne
    · omega
    · exact h.2.2
  · intro h
    exact ⟨by omega, .inr (.inr ⟨hlen, hsize, h⟩)⟩

theorem exact_iff_of_pos (hpos : 0 < toInt keyword.length)
    (hsize : toInt file.content.length ≠ 0) :
    (∃ out, search file keyword = some out ∧ Exact file.content keyword out) ↔
      Searchable file.content keyword := by
  rw [searchable_iff_of_pos hpos hsize]
  by_cases hfile : 0 < toInt file.content.length
  · have ⟨n, hn⟩ : ∃ n : Nat, toInt keyword.length = n :=
      ⟨(toInt keyword.length).toNat, by omega⟩
    have ⟨m, hm⟩ : ∃ m : Nat, toInt file.content.length = m :=
      ⟨(toInt file.content.length).toNat, by omega⟩
    have hle := toInt_le hpos
    rw [exact_of_search (search_positive hn hm (by omega) (by omega)), hn, hm]
    have htells : hits (file.content.take m) keyword n (m + 1 - n) =
        occurrences file.content keyword ↔ Tells file.content keyword m n :=
      hits_eq_occurrences_iff (by omega) (by omega)
    constructor
    · exact fun h => ⟨by omega, htells.mp h.1⟩
    · exact fun h => ⟨htells.mpr h.2, rfl⟩
  · have ⟨i, hsearch⟩ : ∃ i, search file keyword = some (.outside i) :=
      search_negative hpos (by omega)
    rw [exact_of_search hsearch]
    exact ⟨fun h => absurd h id, fun h => absurd h.1 hfile⟩

theorem exact_iff_of_neg (hneg : toInt keyword.length < 0)
    (hsize : toInt file.content.length ≠ 0) :
    (∃ out, search file keyword = some out ∧ Exact file.content keyword out) ↔
      Searchable file.content keyword := by
  have hne : keyword ≠ [] := ne_nil_of_toInt (by omega)
  have hsearch := search_negative_keyword hneg hsize
  rw [searchable_iff_of_neg hneg hsize]
  by_cases hskip :
      0 < toInt file.content.length ∨ toInt file.content.length < toInt keyword.length
  · rw [if_pos hskip] at hsearch
    rw [exact_of_search hsearch, ← occurrences_eq_nil_iff hne]
    constructor
    · exact fun h => ⟨hskip, h.1.symm⟩
    · exact fun h => ⟨h.2.symm, rfl⟩
  · rw [if_neg hskip] at hsearch
    rw [exact_of_search hsearch]
    exact ⟨fun h => absurd h id, fun h => absurd h.1 hskip⟩

/-- **When the search is exact.**  For every file that an `off_t` can measure and every keyword. -/
theorem search_exact_iff (file : File) (keyword : Bytes) :
    (∃ out, search file keyword = some out ∧ Exact file.content keyword out) ↔
      Searchable file.content keyword := by
  by_cases hlen : toInt keyword.length = 0
  · have hsearch : search file keyword = some .emptyKeyword := by simp only [search, if_pos hlen]
    rw [exact_of_search hsearch]
    exact ⟨fun h => absurd h id, fun h => absurd hlen h.1⟩
  by_cases hsize : toInt file.content.length = 0
  · have hsearch : search file keyword = some .emptyFile := by
      simp only [search, if_neg hlen, if_pos hsize]
    rw [exact_of_search hsearch]
    constructor
    · exact fun h => ⟨hlen, .inl h⟩
    · intro ⟨_, h⟩
      rcases h with h | h | h
      · exact h
      · omega
      · exact absurd hsize h.2.1
  by_cases hpos : 0 < toInt keyword.length
  · exact exact_iff_of_pos hpos hsize
  · exact exact_iff_of_neg (by omega) hsize

/-- Below 2 GiB the search is exact. -/
theorem searchable_of_isInt {content : Bytes} (hne : keyword ≠ [])
    (hlen : IsInt keyword.length) (hsize : IsInt content.length) :
    Searchable content keyword := by
  have hpos := List.length_pos_iff.mpr hne
  rw [Searchable, toInt_eq hlen, toInt_eq hsize]
  refine ⟨by omega, ?_⟩
  by_cases hempty : content = []
  · exact .inl hempty
  · have hfile := List.length_pos_iff.mpr hempty
    refine .inr (.inl ⟨by omega, by omega, fun i _ htake => ?_, fun i hoccurs => ?_⟩)
    · rwa [Int.toNat_natCast, List.take_length] at htake
    · have hle := lt_of_occurs hne hoccurs
      omega

/-- For a keyword below 2 GiB and a larger file: the size has wrapped to a positive one, and
no occurrence ends behind that. -/
theorem searchable_iff_of_isInt {content : Bytes} (hne : keyword ≠ [])
    (hlen : IsInt keyword.length) (hsize : ¬ IsInt content.length) :
    Searchable content keyword ↔
      0 < toInt content.length ∧
        ∀ i : Nat, keyword <+: content.drop i → i + keyword.length ≤ toInt content.length := by
  have hpos := List.length_pos_iff.mpr hne
  have hcontent : content ≠ [] := by
    intro heq
    rw [heq] at hsize
    exact hsize (by decide)
  rw [Searchable, toInt_eq hlen]
  constructor
  · intro ⟨_, h⟩
    rcases h with h | h | h
    · exact absurd h hcontent
    · exact ⟨h.2.1, h.2.2.within⟩
    · omega
  · intro ⟨hfile, hwithin⟩
    refine ⟨by omega, .inr (.inl ⟨by omega, hfile, fun i _ htake => ?_, hwithin⟩)⟩
    rwa [Int.toNat_natCast, List.take_length] at htake

/-- Four GiB of one byte are reported as an empty file. -/
theorem search_fails_wrappedSize :
    ¬ ∀ (file : File) (keyword : Bytes), keyword ≠ [] →
      ∃ out, search file keyword = some out ∧ Exact file.content keyword out := by
  intro h
  have hlength : (List.replicate (2 ^ 32) (97 : UInt8)).length = 2 ^ 32 := List.length_replicate
  have hexact := h ⟨List.replicate (2 ^ 32) 97, by omega⟩ [97] (by decide)
  have hsize : toInt (List.replicate (2 ^ 32) (97 : UInt8)).length = 0 := by
    rw [hlength]
    decide
  have ⟨out, hsearch, hreport⟩ := hexact
  have hlen : ¬ toInt ([97] : Bytes).length = 0 := by decide
  simp only [search, if_neg hlen, hsize, if_true] at hsearch
  have hempty : List.replicate (2 ^ 32) (97 : UInt8) = [] := by
    have heq := Option.some.inj hsearch
    subst heq
    exact hreport
  rw [hempty] at hlength
  cases hlength

end Search

end SystemsInC.Ports.MmapSearch
