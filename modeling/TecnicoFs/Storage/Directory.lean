import TecnicoFs.Storage.Disk

/-!
# Directory — the entries of a directory block

A directory is one data block read as an array of `dir_entry_t`: forty bytes of name, then the i-node
number as an `int`, which is `-1` in an empty entry.  The loops of `find_in_dir` and `add_dir_entry`, and the
initialisation loop of `inode_create`, are the same in both file systems; they are embedded here on the
memory that holds the block, at the address `dir` of its first byte.
-/

namespace TecnicoFs

open Lib

/-- `sizeof(dir_entry_t)` -/
abbrev dirEntrySize : ℕ := maxFileName + 4

abbrev maxDirEntries : ℕ := blockSize / dirEntrySize

/-! ## Paths -/

/-- `char const *`; `none` is `NULL`. -/
abbrev Path := Option CString

def validPathname : Path → Bool
  | none => false
  | some name => decide (name.strlen > 1) && decide (name.charAt 0 = 0x2f)

/-- `name + 1`, which can be read only if `name` has a first byte. -/
def afterSlash : Path → Option CString
  | none => none
  | some name => if name.strlen = 0 then none else some name.tail

theorem noNul_slash {c : Byte} (hc : c ≠ 0) : ∀ b ∈ ([0x2f, c] : List Byte), b ≠ 0 := by
  simp [hc]

/-- The path of one character after the slash. -/
def slash (c : Byte) (hc : c ≠ 0) : CString :=
  ⟨[0x2f, c], noNul_slash hc⟩

/-- The path `/a`. -/
def slashA : CString :=
  slash 0x61 (by decide)

/-- The path `/b`. -/
def slashB : CString :=
  slash 0x62 (by decide)

/-! ## The entries -/

/-- `dir_entry[i].d_name` -/
def dName (m : Memory) (dir i : ℕ) : ℕ → Byte :=
  fun k => m (dir + i * dirEntrySize + k)

/-- `dir_entry[i].d_inumber` -/
def dInumber (m : Memory) (dir i : ℕ) : ℤ :=
  readInt m (dir + i * dirEntrySize + maxFileName)

/-- `dir_entry[i].d_inumber = -1` for each entry `i < n`. -/
def clearEntries (m : Memory) (dir n : ℕ) : Memory :=
  (List.range n).foldl (fun m i => writeInt m (dir + i * dirEntrySize + maxFileName) (-1)) m

/-- The first used entry whose name compares equal to `subName`. -/
def searchEntry (m : Memory) (dir : ℕ) (subName : CString) : Option ℕ :=
  (List.range maxDirEntries).find? fun i =>
    decide (dInumber m dir i ≠ -1) &&
      decide (strncmp (dName m dir i) subName.charAt maxFileName = 0)

/-- The first empty entry. -/
def emptyEntry (m : Memory) (dir : ℕ) : Option ℕ :=
  (List.range maxDirEntries).find? fun i => decide (dInumber m dir i = -1)

/-- Fill entry `i`: the i-node number, then the name cut to `MAX_FILE_NAME - 1` bytes and its NUL. -/
def fillEntry (m : Memory) (dir i : ℕ) (subInumber : ℤ) (subName : CString) : Memory :=
  let m₁ := writeInt m (dir + i * dirEntrySize + maxFileName) subInumber
  let m₂ := strncpy m₁ (dir + i * dirEntrySize) subName (maxFileName - 1)
  memcpy m₂ (dir + i * dirEntrySize + (maxFileName - 1)) (fun _ => 0) 1

/-! ## What a directory block holds -/

section Entries

variable {m m' : Memory} {dir i j k : ℕ} {z : ℤ} {name : CString}

/-- The entry is in use. -/
def EntryUsed (m : Memory) (dir i : ℕ) : Prop :=
  dInumber m dir i ≠ -1

instance (m : Memory) (dir i : ℕ) : Decidable (EntryUsed m dir i) :=
  inferInstanceAs (Decidable (dInumber m dir i ≠ -1))

/-- The name that the entry holds. -/
def entryName (m : Memory) (dir i : ℕ) : CString :=
  fieldString (dName m dir i) maxFileName

/-- Every used entry ends its name within the field. -/
def Terminated (m : Memory) (dir : ℕ) : Prop :=
  ∀ i < 23, EntryUsed m dir i → dName m dir i 39 = 0

/-- Two memories agree on the block at address `dir`. -/
def SameBlock (m m' : Memory) (dir : ℕ) : Prop :=
  ∀ k < 1024, m' (dir + k) = m (dir + k)

theorem SameBlock.refl (m : Memory) (dir : ℕ) : SameBlock m m dir :=
  fun _ _ => rfl

theorem SameBlock.symm (h : SameBlock m m' dir) : SameBlock m' m dir :=
  fun k hk => (h k hk).symm

theorem SameBlock.trans {m₁ m₂ m₃ : Memory} (h₁ : SameBlock m₁ m₂ dir)
    (h₂ : SameBlock m₂ m₃ dir) : SameBlock m₁ m₃ dir :=
  fun k hk => (h₂ k hk).trans (h₁ k hk)

theorem SameBlock.dInumber_eq (h : SameBlock m m' dir) (hi : i < 23) :
    dInumber m' dir i = dInumber m dir i := by
  apply readInt_congr
  intro k hk
  have haddr : dir + i * dirEntrySize + maxFileName + k = dir + (i * 44 + 40 + k) := by
    simp only [dirEntrySize, maxFileName]
    omega
  rw [haddr]
  exact h _ (by omega)

theorem SameBlock.dName_eq (h : SameBlock m m' dir) (hi : i < 23) (hk : k < 40) :
    dName m' dir i k = dName m dir i k := by
  have haddr : dir + i * dirEntrySize + k = dir + (i * 44 + k) := by
    simp only [dirEntrySize, maxFileName]
    omega
  unfold dName
  rw [haddr]
  exact h _ (by omega)

theorem SameBlock.entryUsed_iff (h : SameBlock m m' dir) (hi : i < 23) :
    EntryUsed m' dir i ↔ EntryUsed m dir i := by
  rw [EntryUsed, EntryUsed, h.dInumber_eq hi]

theorem fieldBytes_congr {f g : ℕ → Byte} {n : ℕ} (h : ∀ k < n, f k = g k) :
    fieldBytes f n = fieldBytes g n := by
  induction n generalizing f g with
  | zero => rfl
  | succ n ih =>
      have htail := ih (f := fun k => f (k + 1)) (g := fun k => g (k + 1))
        (fun k hk => h (k + 1) (by omega))
      simp only [fieldBytes, htail, h 0 (by omega)]

theorem SameBlock.entryName_eq (h : SameBlock m m' dir) (hi : i < 23) :
    entryName m' dir i = entryName m dir i := by
  apply CString.ext_bytes
  exact fieldBytes_congr fun k hk => h.dName_eq hi hk

theorem SameBlock.terminated (h : SameBlock m m' dir) (ht : Terminated m dir) :
    Terminated m' dir := by
  intro i hi hused
  rw [h.dName_eq hi (by omega)]
  exact ht i hi ((h.entryUsed_iff hi).1 hused)

/-! ## Searching -/

theorem searchEntry_eq_some (ht : Terminated m dir) :
    searchEntry m dir name = some i ↔
      i < 23 ∧ EntryUsed m dir i ∧ entryName m dir i = name ∧
        ∀ j < i, EntryUsed m dir j → entryName m dir j ≠ name := by
  -- names in the directory are terminated, so that `strncmp` compares them whole
  have hentry : ∀ j < 23, EntryUsed m dir j →
      (strncmp (dName m dir j) name.charAt maxFileName = 0 ↔ entryName m dir j = name) := by
    intro j hj hused
    exact strncmp_field_eq_zero_iff (show 39 < maxFileName by decide) (ht j hj hused)
  unfold searchEntry
  rw [List.find?_range_eq_some]
  constructor
  · rintro ⟨hp, hmem, hbefore⟩
    have hi : i < 23 := List.mem_range.1 hmem
    simp only [Bool.and_eq_true, decide_eq_true_eq] at hp
    refine ⟨hi, hp.1, (hentry i hi hp.1).1 hp.2, ?_⟩
    intro j hj hused hname
    have hno := hbefore j hj
    simp only [Bool.not_eq_true', Bool.and_eq_false_iff, decide_eq_false_iff_not] at hno
    rcases hno with hunused | hne
    · exact hunused hused
    · exact hne ((hentry j (by omega) hused).2 hname)
  · rintro ⟨hi, hused, hname, hbefore⟩
    refine ⟨?_, List.mem_range.2 hi, ?_⟩
    · simp only [Bool.and_eq_true, decide_eq_true_eq]
      exact ⟨hused, (hentry i hi hused).2 hname⟩
    · intro j hj
      simp only [Bool.not_eq_true', Bool.and_eq_false_iff, decide_eq_false_iff_not]
      by_cases husedj : EntryUsed m dir j
      · right
        intro hcmp
        exact hbefore j hj husedj ((hentry j (by omega) husedj).1 hcmp)
      · left
        exact husedj

theorem searchEntry_eq_none (ht : Terminated m dir) :
    searchEntry m dir name = none ↔
      ∀ i < 23, EntryUsed m dir i → entryName m dir i ≠ name := by
  constructor
  · intro h i hi hused hname
    have hentry := (strncmp_field_eq_zero_iff (t := name) (show 39 < maxFileName by decide)
      (ht i hi hused)).2 hname
    have hnot := List.find?_range_eq_none.1 h i hi
    simp only [Bool.not_eq_true', Bool.and_eq_false_iff, decide_eq_false_iff_not] at hnot
    rcases hnot with hunused | hne
    · exact hunused hused
    · exact hne hentry
  · intro h
    by_contra hsome
    rcases Option.ne_none_iff_exists'.1 hsome with ⟨i, hi⟩
    rcases (searchEntry_eq_some ht).1 hi with ⟨hlt, hused, hname, _⟩
    exact h i hlt hused hname

theorem emptyEntry_eq_some :
    emptyEntry m dir = some i ↔
      i < 23 ∧ ¬ EntryUsed m dir i ∧ ∀ j < i, EntryUsed m dir j := by
  unfold emptyEntry
  rw [List.find?_range_eq_some]
  simp only [decide_eq_true_eq, List.mem_range, Bool.not_eq_true', decide_eq_false_iff_not]
  constructor
  · rintro ⟨hempty, hlt, hbefore⟩
    exact ⟨hlt, fun hused => hused hempty, hbefore⟩
  · rintro ⟨hlt, hempty, hbefore⟩
    exact ⟨not_not.1 hempty, hlt, hbefore⟩

theorem emptyEntry_eq_none : emptyEntry m dir = none ↔ ∀ i < 23, EntryUsed m dir i := by
  unfold emptyEntry
  rw [List.find?_range_eq_none]
  simp only [Bool.not_eq_true', decide_eq_false_iff_not]
  exact Iff.rfl

/-- Two equal directory blocks give the same search results. -/
theorem SameBlock.searchEntry_eq (h : SameBlock m m' dir) (ht : Terminated m dir) (name : CString) :
    searchEntry m' dir name = searchEntry m dir name := by
  ext i
  rw [searchEntry_eq_some (h.terminated ht), searchEntry_eq_some ht]
  constructor
  · rintro ⟨hi, hused, hname, hbefore⟩
    refine ⟨hi, (h.entryUsed_iff hi).1 hused, (h.entryName_eq hi).symm.trans hname, ?_⟩
    intro j hj husedJ
    rw [← h.entryName_eq (show j < 23 by omega)]
    exact hbefore j hj ((h.entryUsed_iff (by omega)).2 husedJ)
  · rintro ⟨hi, hused, hname, hbefore⟩
    refine ⟨hi, (h.entryUsed_iff hi).2 hused, (h.entryName_eq hi).trans hname, ?_⟩
    intro j hj husedJ
    rw [h.entryName_eq (show j < 23 by omega)]
    exact hbefore j hj ((h.entryUsed_iff (by omega)).1 husedJ)

theorem SameBlock.emptyEntry_eq (h : SameBlock m m' dir) : emptyEntry m' dir = emptyEntry m dir := by
  ext i
  rw [emptyEntry_eq_some, emptyEntry_eq_some]
  constructor
  · rintro ⟨hi, hunused, hbefore⟩
    exact ⟨hi, fun hused => hunused ((h.entryUsed_iff hi).2 hused),
      fun j hj => (h.entryUsed_iff (by omega)).1 (hbefore j hj)⟩
  · rintro ⟨hi, hunused, hbefore⟩
    exact ⟨hi, fun hused => hunused ((h.entryUsed_iff hi).1 hused),
      fun j hj => (h.entryUsed_iff (by omega)).2 (hbefore j hj)⟩

/-! ## Filling an entry -/

/-- Filling an entry of two equal directory blocks leaves them equal. -/
theorem SameBlock.fillEntry (h : SameBlock m m' dir) (i : ℕ) (z : ℤ) (name : CString) :
    SameBlock (fillEntry m dir i z name) (fillEntry m' dir i z name) dir := by
  have hcopy : ∀ {m₁ m₂ : Memory} (dst n : ℕ) (src : ℕ → Byte), SameBlock m₁ m₂ dir →
      SameBlock (memcpy m₁ dst src n) (memcpy m₂ dst src n) dir := by
    intro m₁ m₂ dst n src hsame k hk
    unfold memcpy
    rw [hsame k hk]
  unfold TecnicoFs.fillEntry strncpy writeInt
  exact hcopy _ _ _ (hcopy _ _ _ (hcopy _ _ _ h))

theorem fillEntry_of_disjoint {a : ℕ} (h : a < dir + i * 44 ∨ dir + i * 44 + 44 ≤ a) :
    fillEntry m dir i z name a = m a := by
  have haddr : i * dirEntrySize = i * 44 := rfl
  simp only [fillEntry, strncpy, haddr, maxFileName]
  rw [memcpy_of_disjoint (by omega), memcpy_of_disjoint (by omega),
    writeInt_of_disjoint (by omega)]

theorem dInumber_fillEntry_self (hlo : -2 ^ 31 ≤ z) (hhi : z < 2 ^ 31) :
    dInumber (fillEntry m dir i z name) dir i = z := by
  have hkeep : dInumber (fillEntry m dir i z name) dir i =
      readInt (writeInt m (dir + i * dirEntrySize + maxFileName) z)
        (dir + i * dirEntrySize + maxFileName) := by
    apply readInt_congr
    intro k hk
    simp only [fillEntry, strncpy, maxFileName]
    rw [memcpy_of_disjoint (by omega), memcpy_of_disjoint (by omega)]
  rw [hkeep, readInt_writeInt hlo hhi]

theorem dName_fillEntry_self (hk : k < 40) :
    dName (fillEntry m dir i z name) dir i k = if k < 39 then name.charAt k else 0 := by
  simp only [dName, fillEntry, strncpy, maxFileName]
  by_cases hlast : k < 39
  · rw [memcpy_of_disjoint (by omega), memcpy_add (by omega), if_pos hlast]
  · rw [memcpy_of_mem (by omega) (by omega), if_neg hlast]

theorem dInumber_fillEntry_of_ne (hj : j ≠ i) :
    dInumber (fillEntry m dir i z name) dir j = dInumber m dir j := by
  apply readInt_congr
  intro k hk
  apply fillEntry_of_disjoint
  simp only [dirEntrySize, maxFileName]
  omega

theorem dName_fillEntry_of_ne (hj : j ≠ i) (hk : k < 40) :
    dName (fillEntry m dir i z name) dir j k = dName m dir j k := by
  apply fillEntry_of_disjoint
  simp only [dirEntrySize, maxFileName]
  omega

/-- The part of a name that an entry has room for. -/
def cutName (name : CString) : CString :=
  ⟨name.bytes.take (maxFileName - 1), fun b hb => name.noNul b (List.mem_of_mem_take hb)⟩

theorem cutName_of_le (hlen : name.strlen ≤ 39) : cutName name = name := by
  apply CString.ext_bytes
  exact List.take_of_length_le hlen

theorem entryName_fillEntry_self :
    entryName (fillEntry m dir i z name) dir i = cutName name := by
  have hlen : (cutName name).strlen = min 39 name.strlen := List.length_take
  have hwidth : (cutName name).strlen < maxFileName := by
    have h40 : maxFileName = 40 := rfl
    omega
  apply fieldString_eq hwidth
  intro k hk
  rw [dName_fillEntry_self (by omega)]
  split
  · next hlt =>
      unfold CString.charAt cutName
      simp [List.getD_eq_getElem?_getD, hlt]
  · exact (CString.charAt_of_le (by omega)).symm

theorem entryName_fillEntry_of_ne (hj : j ≠ i) :
    entryName (fillEntry m dir i z name) dir j = entryName m dir j := by
  apply CString.ext_bytes
  exact fieldBytes_congr fun k hk => dName_fillEntry_of_ne hj hk

theorem entryUsed_fillEntry (hlo : 0 ≤ z) (hhi : z < 2 ^ 31) :
    EntryUsed (fillEntry m dir i z name) dir j ↔ j = i ∨ EntryUsed m dir j := by
  unfold EntryUsed
  by_cases hj : j = i
  · subst hj
    rw [dInumber_fillEntry_self (by omega) hhi]
    simp
    omega
  · rw [dInumber_fillEntry_of_ne hj]
    simp [hj]

theorem Terminated.fillEntry (ht : Terminated m dir) (hlo : 0 ≤ z) (hhi : z < 2 ^ 31) :
    Terminated (fillEntry m dir i z name) dir := by
  intro j hj hused
  by_cases hji : j = i
  · subst hji
    rw [dName_fillEntry_self (by omega)]
    simp
  · rw [dName_fillEntry_of_ne hji (by omega)]
    rcases (entryUsed_fillEntry hlo hhi).1 hused with hEq | hused
    · exact absurd hEq hji
    · exact ht j hj hused

/-! ## The empty directory -/

theorem clearEntries_succ (m : Memory) (dir n : ℕ) :
    clearEntries m dir (n + 1) =
      writeInt (clearEntries m dir n) (dir + n * dirEntrySize + maxFileName) (-1) := by
  simp [clearEntries, List.range_succ]

theorem dInumber_clearEntries {n : ℕ} (hi : i < n) : dInumber (clearEntries m dir n) dir i = -1 := by
  induction n with
  | zero => omega
  | succ n ih =>
      rw [clearEntries_succ]
      rcases Nat.lt_succ_iff_lt_or_eq.1 hi with hlt | rfl
      · have hkeep := ih hlt
        unfold dInumber at hkeep ⊢
        rw [readInt_writeInt_of_disjoint (by simp only [dirEntrySize, maxFileName]; omega)]
        exact hkeep
      · exact readInt_writeInt (by decide) (by decide)

theorem dName_clearEntries {n : ℕ} (hk : k < 40) :
    dName (clearEntries m dir n) dir i k = dName m dir i k := by
  induction n with
  | zero => rfl
  | succ n ih =>
      rw [clearEntries_succ]
      unfold dName at ih ⊢
      rw [writeInt_of_disjoint (by simp only [dirEntrySize, maxFileName]; omega)]
      exact ih

theorem not_entryUsed_clearEntries (hi : i < 23) :
    ¬ EntryUsed (clearEntries m dir maxDirEntries) dir i := by
  have hlt : i < maxDirEntries := hi
  simp [EntryUsed, dInumber_clearEntries hlt]

end Entries

end TecnicoFs
