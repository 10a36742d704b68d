import SystemsInC.Verified.PrintedText
import SystemsInC.Ports.RedBlackContent

/-!
# From the data file to the printed tree

`printtree` and `main` of `R-Blacktree-file-2.c`.  `main` inserts the numbers that
`fscanf` reads from data.txt and prints the traversal, the number of rotations and the
tree on its side.  It sorts the numbers of the file (`main_sorts`), and what `printtree`
prints determines the tree up to the addresses (`printtree_iff`).
-/

namespace SystemsInC.Ports.RedBlackPrint

open SystemsInC.Verified.CString
open SystemsInC.Verified.TextInput
open SystemsInC.Verified.MachineInt
open SystemsInC.Verified.PrintedText
open SystemsInC.Verified.CellHeap
open SystemsInC.Verified.TreeZipper
open SystemsInC.Ports.RedBlackHeap (Color RbNode RbMem insertAll)
open SystemsInC.Ports.RedBlackShape
open SystemsInC.Ports.RedBlackContent

/-! ## Printing -/

/-- `(root->color == RED) ? "R" : "B"` -/
def colorText : Color → Bytes
  | .red => ascii "R"
  | .black => ascii "B"

/-- `printf("%d(%s) ", …)` of `inorder`. -/
def entryText (e : Int × Color) : Bytes :=
  signed e.1 ++ ascii "(" ++ colorText e.2 ++ ascii ") "

/-- A line of `printtree` without the newline: four blanks for each level. -/
def lineText (e : Nat × Int × Color) : Bytes :=
  List.replicate (4 * e.1) 32 ++ (signed e.2.1 ++ ascii "(" ++ colorText e.2.2 ++ ascii ")")

/-- What `printtree(root, level)` prints. -/
def printtree : Nat → RbMem → Ptr → Nat → Option Bytes
  | 0, _, _, _ => none
  | fuel + 1, m, root, level =>
      if root = none then
        some []
      else do
        let node ← load m.heap root
        let right ← printtree fuel m node.right (level + 1)
        let left ← printtree fuel m node.left (level + 1)
        return right ++ (lineText (level, node.data, node.color) ++ [10]) ++ left

/-! ## `main` -/

/-- The loop over the numbers of data.txt. -/
def readNumbers (inp : Bytes) : List Int :=
  match _h : scanSigned inp with
  | none => []
  | some (num, rest) => num :: readNumbers rest
termination_by inp.length
decreasing_by exact scanSigned_length _h

/-- What `main` prints; `none` for `data` is a file that cannot be opened. -/
def main (data : Option Bytes) : Option Bytes :=
  match data with
  | none => some (ascii "file cannot be open\n")
  | some inp => do
      let m ← insertAll (readNumbers inp)
      let listed ← RedBlackHeap.inorder (m.next + 1) m m.root
      let tree ← printtree (m.next + 1) m m.root 0
      return ascii "inorder traversal:\n" ++ listed.flatMap entryText ++
        ascii "\nnumber of rotations done:" ++ decimal m.rotationcount ++
        ascii "\nTree structure:\n" ++ tree

/-! ## The lines of a tree -/

/-- What is printed of a node. -/
def shown (v : RbVal) : Int × Color := (v.key, v.color)

/-- The lines that `printtree` prints for a tree. -/
def lines (level : Nat) (t : RbTree) : List (Nat × Int × Color) := indented shown level t

def treeText (ls : List (Nat × Int × Color)) : Bytes := ls.flatMap (fun e => lineText e ++ [10])

/-- The function of the program prints the lines of the tree. -/
theorem printtree_rule {m : RbMem} (t : RbTree) :
    ∀ (path : RbPath) (fuel level : Nat), OnHeap m (plug t path) → t.size < fuel →
      printtree fuel m t.ptr level = some (treeText (lines level t)) := by
  induction t with
  | leaf =>
      intro path fuel level h hfuel
      obtain ⟨n, rfl⟩ : ∃ n, fuel = n + 1 := ⟨fuel - 1, by omega⟩
      simp [printtree, lines, indented, treeText]
  | node a v l r ihl ihr =>
      intro path fuel level h hfuel
      obtain ⟨n, rfl⟩ : ∃ n, fuel = n + 1 := ⟨fuel - 1, by omega⟩
      have hread : m.heap a = some ⟨v.key, v.color, l.ptr, r.ptr, parentPtr path⟩ :=
        h.read (d := .left)
      simp only [HeapTree.size] at hfuel
      have hleft := ihl (⟨.left, a, v, r⟩ :: path) n (level + 1) h (by omega)
      have hright := ihr (⟨.right, a, v, l⟩ :: path) n (level + 1) h (by omega)
      simp [printtree, hread, hleft, hright, lines, indented, treeText, shown]

theorem colorText_inj {c c' : Color} (h : colorText c = colorText c') : c = c' := by
  revert h
  cases c <;> cases c' <;> decide

/-- A line determines the level, the number and the color. -/
theorem lineText_inj {e e' : Nat × Int × Color} (h : lineText e = lineText e') : e = e' := by
  obtain ⟨level, data, color⟩ := e
  obtain ⟨level', data', color'⟩ := e'
  have hblank : ∀ z : Int, (32 : UInt8) ∉ signed z := fun z => not_mem_signed rfl (by decide)
  have hparen : ∀ z : Int, (40 : UInt8) ∉ signed z := fun z => not_mem_signed rfl (by decide)
  -- the text behind the blanks starts with another character
  have hhead : ∀ (z : Int) (rest : Bytes),
      ∃ b tail, b ≠ 32 ∧ signed z ++ 40 :: rest = b :: tail := by
    intro z rest
    cases hz : signed z with
    | nil => exact ⟨40, rest, by decide, rfl⟩
    | cons b tail =>
        refine ⟨b, tail ++ 40 :: rest, ?_, rfl⟩
        rintro rfl
        exact hblank z (hz ▸ List.mem_cons_self)
  have hsplit : ∀ (n : Nat) (z : Int) (c : Color), lineText (n, z, c) =
      List.replicate (4 * n) 32 ++ (signed z ++ 40 :: (colorText c ++ [41])) := by
    intro n z c
    simp [lineText, ascii]
  rw [hsplit, hsplit] at h
  obtain ⟨b, tail, hb, htext⟩ := hhead data (colorText color ++ [41])
  obtain ⟨b', tail', hb', htext'⟩ := hhead data' (colorText color' ++ [41])
  rw [htext, htext'] at h
  obtain ⟨hlevel, hfirst, hrest⟩ := first_inj (p := (· ≠ 32))
    (fun y hy => not_not_intro (List.eq_of_mem_replicate hy))
    (fun y hy => not_not_intro (List.eq_of_mem_replicate hy)) hb hb' h
  have hsame : signed data ++ 40 :: (colorText color ++ [41]) =
      signed data' ++ 40 :: (colorText color' ++ [41]) := by
    rw [htext, htext', hfirst, hrest]
  obtain ⟨hdata, hcolor⟩ := delimited_inj (hparen data) (hparen data') hsame
  have hcount := congrArg List.length hlevel
  rw [List.length_replicate, List.length_replicate] at hcount
  have hnumber := signed_inj hdata
  have hletter := colorText_inj (List.append_cancel_right hcolor)
  rw [hnumber, hletter, (by omega : level = level')]

/-- The end of a line is only there. -/
theorem newline_not_mem (e : Nat × Int × Color) : 10 ∉ lineText e := by
  have hnumber : (10 : UInt8) ∉ signed e.2.1 := not_mem_signed rfl (by decide)
  have hcolor : ∀ c, (10 : UInt8) ∉ ascii "(" ++ colorText c ++ ascii ")" := by
    intro c
    cases c <;> decide
  have hrest := hcolor e.2.2
  simp only [lineText, List.mem_append, List.mem_replicate, not_or] at hrest ⊢
  exact ⟨fun h => absurd h.2 (by decide), ⟨⟨hnumber, hrest.1.1⟩, hrest.1.2⟩, hrest.2⟩

theorem treeText_inj {ls ls' : List (Nat × Int × Color)} :
    treeText ls = treeText ls' ↔ ls = ls' := by
  constructor
  · intro h
    exact List.map_injective_iff.mpr (fun _ _ => lineText_inj) (lines_inj newline_not_mem h)
  · rintro rfl
    rfl

/-- **The printed tree determines the tree.**  After any two sequences of insertions
`printtree` prints the same text exactly if the two trees have the same shape with the
same numbers and colors. -/
theorem printtree_iff (values values' : List Int) :
    ∃ m m' t t' text text', insertAll values = some m ∧ insertAll values' = some m' ∧
      OnHeap m t ∧ OnHeap m' t' ∧
      (∀ fuel, m.next < fuel → printtree fuel m m.root 0 = some text) ∧
      (∀ fuel, m'.next < fuel → printtree fuel m' m'.root 0 = some text') ∧
      (text = text' ↔ erase shown t = erase shown t') := by
  obtain ⟨m, hrun, hcontent⟩ := exists_content values
  obtain ⟨m', hrun', hcontent'⟩ := exists_content values'
  have hrep := hcontent.shape.rep
  have hrep' := hcontent'.shape.rep
  refine ⟨m, m', build values, build values', treeText (lines 0 (build values)),
    treeText (lines 0 (build values')), hrun, hrun', hrep, hrep', fun fuel hfuel => ?_,
    fun fuel hfuel => ?_, ?_⟩
  · rw [hrep.root]
    exact printtree_rule _ [] fuel 0 hrep (Nat.lt_of_le_of_lt hcontent.shape.size_le hfuel)
  · rw [hrep'.root]
    exact printtree_rule _ [] fuel 0 hrep' (Nat.lt_of_le_of_lt hcontent'.shape.size_le hfuel)
  · rw [treeText_inj, lines, lines, indented_inj]

/-! ## The numbers of the file -/

/-- Numbers with white space before each and behind the last. -/
def fileText (items : List (Bytes × Int)) (tail : Bytes) : Bytes :=
  items.flatMap (fun p => p.1 ++ signed p.2) ++ tail

structure DataFile (items : List (Bytes × Int)) (tail : Bytes) : Prop where
  white : ∀ p ∈ items, ∀ b ∈ p.1, isSpace b = true
  ints : ∀ p ∈ items, IsInt p.2
  /-- Two numbers are apart. -/
  apart : ∀ p ∈ items.tail, p.1 ≠ []
  tail : ∀ b ∈ tail, isSpace b = true

theorem space_not_digit {b : UInt8} (h : isSpace b = true) : isDigit b = false := by
  cases hdigit : isDigit b with
  | false => rfl
  | true =>
      have hrange := (isDigit_iff b).mp hdigit
      simp only [isSpace, Bool.or_eq_true, Bool.and_eq_true, decide_eq_true_eq] at h
      rcases h with rfl | ⟨-, hle⟩
      · simp at hrange
      · have hnat := UInt8.le_iff_toNat_le.mp hle
        have hthirteen : (13 : UInt8).toNat = 13 := rfl
        omega

/-- White space alone has no number. -/
theorem readNumbers_white {tail : Bytes} (h : ∀ b ∈ tail, isSpace b = true) :
    readNumbers tail = [] := by
  have hnone : scanSigned tail = none := by
    have hskip : tail.dropWhile isSpace = [] := List.dropWhile_eq_nil_iff.mpr h
    rw [scanSigned, hskip]
  rw [readNumbers]
  split
  · rfl
  · rename_i hsome
    rw [hnone] at hsome
    cases hsome

theorem readNumbers_cons {inp rest : Bytes} {num : Int} (h : scanSigned inp = some (num, rest)) :
    readNumbers inp = num :: readNumbers rest := by
  rw [readNumbers]
  split
  · rename_i hnone
    rw [h] at hnone
    cases hnone
  · rename_i hsome
    rw [h] at hsome
    cases hsome
    rfl

/-- The loop reads the numbers of the file. -/
theorem readNumbers_fileText {items : List (Bytes × Int)} {tail : Bytes}
    (h : DataFile items tail) : readNumbers (fileText items tail) = items.map Prod.snd := by
  induction items with
  | nil => exact readNumbers_white h.tail
  | cons p items ih =>
      have hrest : ∀ b, (fileText items tail).head? = some b → isDigit b = false := by
        intro b hb
        cases items with
        | nil => exact space_not_digit (h.tail b (List.mem_of_mem_head? hb))
        | cons q items =>
            have hq : q ∈ (p :: q :: items).tail := List.mem_cons_self
            cases hwhite : q.1 with
            | nil => exact absurd hwhite (h.apart q hq)
            | cons c white =>
                have hc : c = b := by simpa [fileText, hwhite] using hb
                have hmem : c ∈ q.1 := hwhite ▸ List.mem_cons_self
                exact hc ▸ space_not_digit (h.white q (List.mem_of_mem_tail hq) c hmem)
      have hscan : scanSigned (fileText (p :: items) tail) =
          some (p.2, fileText items tail) := by
        have hsplit : fileText (p :: items) tail = p.1 ++ signed p.2 ++ fileText items tail := by
          simp [fileText]
        rw [hsplit]
        exact scanSigned_signed (h.white p List.mem_cons_self) (h.ints p List.mem_cons_self) hrest
      have htail : DataFile items tail :=
        { white := fun q hq => h.white q (List.mem_cons_of_mem p hq)
          ints := fun q hq => h.ints q (List.mem_cons_of_mem p hq)
          apart := fun q hq => h.apart q (List.mem_of_mem_tail hq)
          tail := h.tail }
      rw [readNumbers_cons hscan, ih htail, List.map_cons]

/-- **The program sorts the file.**  The traversal that it prints has the numbers of
data.txt in order, after at most two rotations for each, and the lines of the printed
tree, from the last to the first, are the same list. -/
theorem main_sorts (items : List (Bytes × Int)) (tail : Bytes) (h : DataFile items tail) :
    ∃ listed ls rotations,
      main (some (fileText items tail)) = some (ascii "inorder traversal:\n" ++
        listed.flatMap entryText ++ ascii "\nnumber of rotations done:" ++ decimal rotations ++
        ascii "\nTree structure:\n" ++ treeText ls) ∧
      (listed.map Prod.fst).Pairwise (· ≤ ·) ∧
      (listed.map Prod.fst).Perm (items.map Prod.snd) ∧
      rotations ≤ 2 * items.length ∧
      (ls.map Prod.snd).reverse = listed := by
  obtain ⟨m, hrun, hcontent⟩ := exists_content (items.map Prod.snd)
  have hrep := hcontent.shape.rep
  have hsize := Nat.lt_succ_of_le hcontent.shape.size_le
  have hlisted : RedBlackHeap.inorder (m.next + 1) m m.root =
      some (listing (build (items.map Prod.snd))) := by
    rw [hrep.root]
    exact inorder_rule _ [] _ hrep hsize
  have htree : printtree (m.next + 1) m m.root 0 =
      some (treeText (lines 0 (build (items.map Prod.snd)))) := by
    rw [hrep.root]
    exact printtree_rule _ [] _ 0 hrep hsize
  have hrotations := hcontent.rotations
  rw [List.length_map] at hrotations
  refine ⟨listing (build (items.map Prod.snd)), lines 0 (build (items.map Prod.snd)),
    m.rotationcount, ?_, ?_, ?_, hrotations, reverse_indented shown 0 _⟩
  · simp [main, readNumbers_fileText h, hrun, hlisted, htree]
  · rw [map_fst_listing]
    exact hcontent.sorted
  · rw [map_fst_listing]
    exact hcontent.perm

/-- The file of the repository. -/
def dataTxt : List (Bytes × Int) :=
  [([], 10), ([32], 20), ([32], 30), ([32], 15), ([32], 25), ([32], 5), ([32], 1)]

theorem main_sorts_dataTxt :
    ∃ listed ls rotations,
      main (some (fileText dataTxt [])) = some (ascii "inorder traversal:\n" ++
        listed.flatMap entryText ++ ascii "\nnumber of rotations done:" ++ decimal rotations ++
        ascii "\nTree structure:\n" ++ treeText ls) ∧
      (listed.map Prod.fst).Pairwise (· ≤ ·) ∧
      (listed.map Prod.fst).Perm (dataTxt.map Prod.snd) ∧
      rotations ≤ 2 * dataTxt.length ∧
      (ls.map Prod.snd).reverse = listed :=
  main_sorts dataTxt []
    { white := by simp [dataTxt, isSpace]
      ints := by decide
      apart := by decide
      tail := by simp }

end SystemsInC.Ports.RedBlackPrint
