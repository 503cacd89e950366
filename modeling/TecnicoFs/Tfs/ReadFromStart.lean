import TecnicoFs.Tfs.ReadLaw

/-!
# Reading from the start — how far one `tfs_read` of a new handle gets

From offset 0 each turn adds a multiple of the block size to the offset, so all turns start at a block
boundary, and the bytes delivered are the first bytes of the file.  How many they are depends on how many
leading blocks the file has; behind `i_data_block` the turns take whole blocks, also the last one.
-/

namespace TecnicoFs
namespace Tfs

open Lib

/-! ## The blocks that a file has -/

/-- The address of block `k` of file `i`, if it is there. -/
def blockAddress (s : State) (i k : ℕ) : Option ℕ :=
  if k < directBlocksQuantity ∨ validBlockNumber (s.inodeTable i).iIndexBlock = true then
    dataBlockGet (slotValue s (fileSlot i k))
  else
    none

/-- The blocks before the first one that the file does not have. -/
def leadingBlocks (s : State) (i : ℕ) : ℕ :=
  ((List.range (directBlocksQuantity + indexEntries)).find? fun k => (blockAddress s i k).isNone).getD
    (directBlocksQuantity + indexEntries)

/-- The first `n` bytes of file `i`. -/
def firstBytes (s : State) (i n : ℕ) : List Byte :=
  (List.range n).map (byteAt s i)

/-- The blocks that `m` bytes reach into. -/
def blocksOf (m : ℕ) : ℕ :=
  (m + (blockSize - 1)) / blockSize

/-- How many bytes a read of `m` bytes from the start of file `i` delivers. -/
def deliveredLength (s : State) (i m : ℕ) : ℕ :=
  if m ≤ blockSize * directBlocksQuantity then min m (blockSize * leadingBlocks s i)
  else blockSize * min (blocksOf m) (leadingBlocks s i)

/-- The read gets through `i_data_block`, and then there is no index block. -/
def LacksIndex (s : State) (i m : ℕ) : Prop :=
  dataBlockGet (s.inodeTable i).iIndexBlock = none ∧ min (blocksOf m) directBlocksQuantity ≤ leadingBlocks s i

instance (s : State) (i m : ℕ) : Decidable (LacksIndex s i m) :=
  inferInstanceAs (Decidable (_ ∧ _))

section Blocks

variable {s : State} {i k : ℕ}

theorem leadingBlocks_spec (s : State) (i : ℕ) :
    leadingBlocks s i ≤ 266 ∧ (∀ k < leadingBlocks s i, ∃ a, blockAddress s i k = some a) ∧
      (leadingBlocks s i < 266 → blockAddress s i (leadingBlocks s i) = none) := by
  unfold leadingBlocks
  have hall : directBlocksQuantity + indexEntries = 266 := rfl
  rw [hall]
  rcases hfind : (List.range 266).find? (fun k => (blockAddress s i k).isNone) with _ | l
  · refine ⟨le_rfl, ?_, fun h => absurd h (by simp)⟩
    intro k hk
    have hsome := List.find?_range_eq_none.1 hfind k hk
    exact Option.isSome_iff_exists.1 (by simpa using hsome)
  · rw [List.find?_range_eq_some] at hfind
    rcases hfind with ⟨hnone, hmem, hbefore⟩
    refine ⟨(List.mem_range.1 hmem).le, ?_, fun _ => Option.isNone_iff_eq_none.1 hnone⟩
    intro k hk
    exact Option.isSome_iff_exists.1 (by simpa using hbefore k hk)

@[simp] theorem length_firstBytes (s : State) (i n : ℕ) : (firstBytes s i n).length = n := by
  simp [firstBytes]

theorem firstBytes_add (s : State) (i m n : ℕ) :
    firstBytes s i (m + n) = firstBytes s i m ++ (List.range n).map fun q => byteAt s i (m + q) := by
  simp only [firstBytes, List.range_add, List.map_append, List.map_map]
  rfl

theorem take_firstBytes {m n : ℕ} (h : m ≤ n) : (firstBytes s i n).take m = firstBytes s i m := by
  rw [firstBytes, ← List.map_take, List.take_range, Nat.min_eq_left h]
  rfl

/-- The bytes of a block that is there. -/
theorem memread_eq_firstBytes {a n : ℕ} (ha : blockAddress s i k = some a) (hn : n ≤ 1024) :
    memread s.disk.fsData a n = (List.range n).map fun q => byteAt s i (1024 * k + q) := by
  unfold blockAddress at ha
  split at ha
  · rcases dataBlockGet_eq_some_iff.1 ha with ⟨b, _, hvalue, rfl⟩
    apply List.map_congr_left
    intro q hq
    have hlt := List.mem_range.1 hq
    rw [byteAt, show (1024 * k + q) / 1024 = k by omega, show (1024 * k + q) % 1024 = q by omega, hvalue,
      Int.toNat_natCast]
  · cases ha

end Blocks

/-! ## The turns -/

/-- A reader of `u` that has read the first `l` blocks of file `i` through handle `h`. -/
structure AtBlock (u : State) (h i l : ℕ) (out : List Byte) (s : State) : Prop where
  out : out = firstBytes u i (1024 * l)
  state : ∃ o, o % 1024 = 0 ∧ o ≤ 272384 * l ∧
    s = u.setEntry h { u.openFileTable h with ofOffset := o }

/-- The `n` slots are the blocks of file `i` from block `base` on, wherever handle `h` stands. -/
def HasBlocks (u : State) (h i base n : ℕ) (slots : BlockSlots) : Prop :=
  ∀ e, ∀ k < n, dataBlockGet (slots.get (u.setEntry h e) k) = blockAddress u i (base + k)

section Turns

variable {u s : State} {h i l m n base k left : ℕ} {out : List Byte} {slots : BlockSlots} {bound : ℕ → ℕ}

theorem hasBlocks_direct : HasBlocks u h i 0 10 (directSlots i) := by
  intro e k hk
  unfold blockAddress fileSlot
  rw [if_pos (Or.inl (by simp only [directBlocksQuantity]; omega)), if_pos (by omega), Nat.zero_add]
  rfl

theorem hasBlocks_index {a : ℕ} (ha : dataBlockGet (u.inodeTable i).iIndexBlock = some a) :
    HasBlocks u h i 10 256 (indexSlots a) := by
  rcases dataBlockGet_eq_some_iff.1 ha with ⟨b, hb, hindex, rfl⟩
  have hvalid : validBlockNumber (u.inodeTable i).iIndexBlock = true := by
    rw [hindex]
    exact validBlockNumber_natCast.2 hb
  intro e k hk
  unfold blockAddress fileSlot
  rw [if_pos (Or.inr hvalid), if_neg (by omega), show 10 + k - 10 = k by omega]
  simp [indexSlots, slotValue, indexAddress, hindex]

theorem atBlock_zero (ho : (s.openFileTable h).ofOffset = 0) : AtBlock s h i 0 [] s := by
  refine ⟨rfl, 0, rfl, by omega, ?_⟩
  rw [← ho]
  simp [State.setEntry]

/-- A turn takes the rest of its block, or what the loop's bound leaves of it. -/
theorem AtBlock.turn (bound : ℕ → ℕ) (hs : AtBlock u h i l out s) (hl : l < 266) (hmore : 1024 * l < m)
    (hblocks : HasBlocks u h i base n slots) (hk : k < n) (hbase : base + k = l) {a : ℕ}
    (ha : blockAddress u i l = some a) (left : ℕ) :
    ∃ o s', s' = u.setEntry h { u.openFileTable h with ofOffset := o } ∧
      readLoop slots bound h m (left + 1) k out s = readLoop slots bound h m left (k + 1)
        (firstBytes u i (1024 * l + min 1024 (bound (1024 * l)))) s' ∧
      (1024 ≤ bound (1024 * l) → AtBlock u h i (l + 1) (firstBytes u i (1024 * (l + 1))) s') := by
  rcases hs with ⟨rfl, o, halign, hoff, rfl⟩
  have hget := hblocks { u.openFileTable h with ofOffset := o } k hk
  rw [hbase, ha] at hget
  have hsame : ((u.setEntry h { u.openFileTable h with ofOffset := o }).openFileTable h).ofOffset = o := by simp
  -- the offset is at the start of a block, so a turn reads a whole block or all that is left
  have hcount : readInBlock o (bound (1024 * l)) = min 1024 (bound (1024 * l)) := by
    rw [readInBlock_eq_min, halign, Nat.sub_zero]
  have hbytes := memread_eq_firstBytes ha (n := min 1024 (bound (1024 * l))) (min_le_left _ _)
  have hlen : (firstBytes u i (1024 * l)).length < m := by rwa [length_firstBytes]
  refine ⟨sizeAdd o (1024 * l + min 1024 (bound (1024 * l))), _, rfl, ?_, ?_⟩
  · rw [readLoop, if_pos hlen]
    simp only [hget, hsame, length_firstBytes, hcount, halign, Nat.add_zero, State.setEntry_disk, hbytes,
      ← firstBytes_add, blockSize]
    simp [State.setEntry]
  · intro hfull
    have hsum : sizeAdd o (1024 * l + min 1024 (bound (1024 * l))) = o + 1024 * (l + 1) := by
      rw [min_eq_left hfull, sizeAdd_of_lt (by omega)]
      omega
    -- the offset grows by more than a block each turn, and stays below the wrap
    have hnext : o + 1024 * (l + 1) ≤ 272384 * (l + 1) := by
      have hturn : 1024 * (l + 1) ≤ 272384 := by omega
      rw [Nat.mul_succ 272384 l]
      exact Nat.add_le_add hoff hturn
    rw [hsum]
    exact ⟨rfl, o + 1024 * (l + 1), by omega, hnext, rfl⟩

/-- Turns that take whole blocks, by induction on their number. -/
theorem AtBlock.run (bound : ℕ → ℕ) (hblocks : HasBlocks u h i base n slots) (left d : ℕ) :
    ∀ {l k : ℕ} {out : List Byte} {s : State}, AtBlock u h i l out s → l + d ≤ 266 → k + d ≤ n →
      base + k = l → (∀ e < d, 1024 * (l + e) < m ∧ 1024 ≤ bound (1024 * (l + e)) ∧
        ∃ a, blockAddress u i (l + e) = some a) →
      ∃ out' s', AtBlock u h i (l + d) out' s' ∧
        readLoop slots bound h m (left + d) k out s = readLoop slots bound h m left (k + d) out' s' := by
  induction d with
  | zero =>
      intro l k out s hs _ _ _ _
      exact ⟨out, s, hs, rfl⟩
  | succ d ih =>
      intro l k out s hs hl hk hbase hall
      have hfirst := hall 0 (by omega)
      rw [Nat.add_zero] at hfirst
      rcases hfirst with ⟨hmore, hfull, a, ha⟩
      rcases hs.turn bound (by omega) hmore hblocks (by omega) hbase ha (left + d) with
        ⟨o, s₁, _, hturn, hnext⟩
      have hs₁ := hnext hfull
      rw [min_eq_left hfull, show 1024 * l + 1024 = 1024 * (l + 1) by omega] at hturn
      rcases ih (l := l + 1) (k := k + 1) hs₁ (by omega) (by omega) (by omega) (fun e he => by
          rw [show l + 1 + e = l + (e + 1) by omega]
          exact hall (e + 1) (by omega)) with ⟨out', s', hs', hrest⟩
      refine ⟨out', s', by rwa [show l + (d + 1) = l + 1 + d by omega], ?_⟩
      rw [← Nat.add_assoc left d 1, hturn, hrest, show k + 1 + d = k + (d + 1) by omega]

theorem AtBlock.noBlock (hs : AtBlock u h i l out s) (hmore : 1024 * l < m)
    (hblocks : HasBlocks u h i base n slots) (hk : k < n) (hbase : base + k = l)
    (hnone : blockAddress u i l = none) (left : ℕ) :
    readLoop slots bound h m (left + 1) k out s = .noBlock out s := by
  rcases hs with ⟨rfl, o, _, _, rfl⟩
  have hget := hblocks { u.openFileTable h with ofOffset := o } k hk
  rw [hbase, hnone] at hget
  have hlen : (firstBytes u i (1024 * l)).length < m := by rwa [length_firstBytes]
  rw [readLoop, if_pos hlen]
  simp only [hget]

theorem AtBlock.moved (hs : AtBlock u h i l out s) :
    ∃ o, s = u.setEntry h { u.openFileTable h with ofOffset := o } := by
  rcases hs.state with ⟨o, _, _, hEq⟩
  exact ⟨o, hEq⟩

end Turns

/-! ## The two loops -/

section Loops

variable {u s : State} {h i m : ℕ} {out : List Byte}

theorem lt_blocksOf {l m : ℕ} : l < blocksOf m ↔ 1024 * l < m := by
  unfold blocksOf
  simp only [blockSize]
  omega

/-- The loop over `i_data_block` delivers all that it can, or ends at a missing block. -/
theorem readLoop_direct_fromStart (hs : AtBlock u h i 0 [] s) :
    (min (blocksOf m) 10 ≤ leadingBlocks u i ∧ ∃ J s' o,
      s' = u.setEntry h { u.openFileTable h with ofOffset := o } ∧
      readLoop (directSlots i) (fun read => m - read) h m 10 0 [] s =
          .done J (firstBytes u i (min m 10240)) s' ∧
      (10240 < m → J = 10 ∧ AtBlock u h i 10 (firstBytes u i 10240) s')) ∨
    (leadingBlocks u i < min (blocksOf m) 10 ∧ ∃ s' o,
      s' = u.setEntry h { u.openFileTable h with ofOffset := o } ∧
      readLoop (directSlots i) (fun read => m - read) h m 10 0 [] s =
        .noBlock (firstBytes u i (1024 * leadingBlocks u i)) s') := by
  rcases leadingBlocks_spec u i with ⟨hle, hpresent, hmissing⟩
  generalize leadingBlocks u i = lead at hle hpresent hmissing ⊢
  -- the turns that take whole blocks
  obtain ⟨d, hd⟩ : ∃ d, d = min lead (min (m / 1024) 10) := ⟨_, rfl⟩
  rcases AtBlock.run (m := m) (n := 10) (fun read => m - read) hasBlocks_direct (10 - d) d (k := 0) hs
      (by omega)
    (by omega) rfl (fun e he => ⟨by omega, by simp only [Nat.zero_add]; omega, by
      rw [Nat.zero_add]
      exact hpresent e (by omega)⟩) with ⟨out', s', hs', hrun⟩
  rw [show 10 - d + d = 10 by omega, Nat.zero_add] at hrun
  rw [Nat.zero_add] at hs'
  have hout := hs'.out
  rcases hs'.moved with ⟨o, hstate⟩
  rcases Nat.eq_or_lt_of_le (show d ≤ 10 by omega) with hten | hten
  · -- all ten blocks
    left
    subst hten
    have hmin : min m 10240 = 10240 := by omega
    refine ⟨by omega, 10, s', o, hstate, ?_, fun _ => ⟨rfl, ?_⟩⟩
    · rw [hrun, hout, hmin]
      rfl
    · rw [hout] at hs'
      exact hs'
  by_cases hwhole : m = 1024 * d
  · -- the last turn took the last byte
    left
    have hblocks := lt_blocksOf (l := d) (m := m)
    have hmin : min m 10240 = 1024 * d := by omega
    refine ⟨by omega, d, s', o, hstate, ?_, fun hlong => absurd hlong (by omega)⟩
    rw [hrun, readLoop_of_le (by rw [hout, length_firstBytes]; omega), hout, hmin]
  have hmore : 1024 * d < m := by omega
  have hleft : 10 - d = 9 - d + 1 := by omega
  rw [hleft] at hrun
  by_cases hlead : d < lead
  · -- a turn for the rest
    left
    rcases hpresent d hlead with ⟨a, ha⟩
    rcases hs'.turn (fun read => m - read) (by omega) hmore hasBlocks_direct hten (Nat.zero_add d) ha
      (9 - d) with ⟨o₂, s₂, hstate₂, hturn, _⟩
    have hrest : 1024 * d + min 1024 (m - 1024 * d) = m := by omega
    have hblocks := lt_blocksOf (l := d + 1) (m := m)
    have hmin : min m 10240 = m := by omega
    rw [hrest] at hturn
    refine ⟨by omega, d + 1, s₂, o₂, hstate₂, ?_, fun hlong => absurd hlong (by omega)⟩
    rw [hrun, hturn, readLoop_of_le (by rw [length_firstBytes]; omega), hmin]
  · right
    have hEq : lead = d := by omega
    have hblocks := lt_blocksOf (l := d) (m := m)
    refine ⟨by omega, s', o, hstate, ?_⟩
    rw [hrun, hs'.noBlock hmore hasBlocks_direct hten (Nat.zero_add d)
        (by rw [← hEq]; exact hmissing (by omega)),
      hout, hEq]

/-- The loop over the index block takes whole blocks up to the last byte, or to a missing block. -/
theorem readLoop_index_fromStart {a : ℕ} (ha : dataBlockGet (u.inodeTable i).iIndexBlock = some a)
    (hs : AtBlock u h i 10 out s) (hm : 10240 < m) (hlead : 10 ≤ leadingBlocks u i) :
    (readLoop (indexSlots a) (fun _ => m) h m 256 0 out s).out =
        firstBytes u i (1024 * min (blocksOf m) (leadingBlocks u i)) ∧
      ∃ o, (readLoop (indexSlots a) (fun _ => m) h m 256 0 out s).state =
        u.setEntry h { u.openFileTable h with ofOffset := o } := by
  rcases leadingBlocks_spec u i with ⟨hle, hpresent, hmissing⟩
  generalize leadingBlocks u i = lead at hle hpresent hmissing hlead ⊢
  have hlt := fun l => lt_blocksOf (l := l) (m := m)
  -- `d` turns find a block; the next one ends the loop
  obtain ⟨d, hd⟩ : ∃ d, d = min (blocksOf m) lead - 10 := ⟨_, rfl⟩
  have hten : 10 < blocksOf m := (hlt 10).2 (by omega)
  rcases AtBlock.run (m := m) (n := 256) (fun _ => m) (hasBlocks_index ha) (256 - d) d (k := 0) hs (by omega)
    (by omega) rfl
    (fun e he => ⟨(hlt _).1 (by omega), by omega, hpresent _ (by omega)⟩) with ⟨out', s', hs', hrun⟩
  rw [show 256 - d + d = 256 by omega, Nat.zero_add] at hrun
  rw [hrun, show min (blocksOf m) lead = 10 + d by omega]
  rcases hs'.moved with ⟨o, hstate⟩
  rw [← hs'.out]
  rcases Nat.eq_or_lt_of_le (show d ≤ 256 by omega) with hall | hless
  · subst hall
    exact ⟨rfl, o, hstate⟩
  rw [show 256 - d = 255 - d + 1 by omega]
  by_cases hread : lead < blocksOf m
  · -- the file has no block for the next turn
    have hlast : lead = 10 + d := by omega
    rw [hs'.noBlock ((hlt _).1 (by omega)) (hasBlocks_index ha) hless rfl
        (by rw [← hlast]; exact hmissing (by omega))]
    exact ⟨rfl, o, hstate⟩
  · have hdone : ¬ out'.length < m := by
      have hnot := (hlt (10 + d)).not
      rw [hs'.out, length_firstBytes]
      omega
    rw [readLoop_of_le hdone]
    exact ⟨rfl, o, hstate⟩

/-- A read of `m` bytes from the start of the file. -/
theorem readBlocks_fromStart (ho : (s.openFileTable h).ofOffset = 0) :
    ∃ o, readBlocks h i m 0 s = (if LacksIndex s i m then -1 else (deliveredLength s i m : ℤ),
      firstBytes s i (deliveredLength s i m), s.setEntry h { s.openFileTable h with ofOffset := o }) := by
  rcases leadingBlocks_spec s i with ⟨hle, hpresent, _⟩
  have hentries : indexEntries = 256 := rfl
  have hsize : blockSize = 1024 := rfl
  have hblocks := fun l => lt_blocksOf (l := l) (m := m)
  have hbound : deliveredLength s i m ≤ 1024 * 266 := by
    unfold deliveredLength
    simp only [hsize, directBlocksQuantity]
    split <;> omega
  have hcast : castLong (firstBytes s i (deliveredLength s i m)).length = deliveredLength s i m := by
    rw [length_firstBytes]
    exact castLong_of_range (by omega) (by omega)
  unfold readBlocks
  rw [show directBlocksQuantity - 0 = 10 from rfl]
  rcases readLoop_direct_fromStart (m := m) (atBlock_zero ho) with
    ⟨hlead, J, s', o, hstate, hloop, hlong⟩ | ⟨hlead, s', o, hstate, hloop⟩
  · rw [hloop]
    have hnode : s'.inodeTable = s.inodeTable := by rw [hstate]; rfl
    rcases hget : dataBlockGet (s.inodeTable i).iIndexBlock with _ | a
    · -- without an index block no block behind `i_data_block` is there
      have hfew : leadingBlocks s i ≤ 10 := by
        by_contra hmany
        rcases hpresent 10 (by omega) with ⟨c, hc⟩
        have hinvalid : ¬ validBlockNumber (s.inodeTable i).iIndexBlock = true := by
          intro hvalid
          rw [dataBlockGet, if_pos hvalid] at hget
          cases hget
        rw [blockAddress, if_neg (by simp [hinvalid])] at hc
        cases hc
      have hlacks : LacksIndex s i m := ⟨hget, hlead⟩
      have hlen : deliveredLength s i m = min m 10240 := by
        have h10 := hblocks 10
        have hall := hblocks (leadingBlocks s i)
        unfold deliveredLength
        simp only [hsize, directBlocksQuantity]
        split <;> omega
      refine ⟨o, ?_⟩
      simp only [hnode, hget, if_pos hlacks, hlen]
      rw [hstate]
    · have hindex : ¬ LacksIndex s i m := by
        rintro ⟨hnone, _⟩
        rw [hget] at hnone
        cases hnone
      simp only [hnode, hget, if_neg hindex]
      by_cases hshort : m ≤ 10240
      · have hlen : deliveredLength s i m = m := by
          have hall := hblocks (leadingBlocks s i)
          unfold deliveredLength
          simp only [hsize, directBlocksQuantity]
          split <;> omega
        rw [show min m 10240 = m by omega, readLoop_of_le (by rw [length_firstBytes]; omega)]
        rw [hlen] at hcast
        exact ⟨o, by simp only [hlen, hcast, hstate]⟩
      · rcases hlong (by omega) with ⟨rfl, hten⟩
        have h10 := (hblocks 10).2 (by omega)
        have hlen : deliveredLength s i m = 1024 * min (blocksOf m) (leadingBlocks s i) := by
          unfold deliveredLength
          simp only [hsize, directBlocksQuantity]
          rw [if_neg (by omega)]
        rw [show min m 10240 = 10240 by omega, show indirectIndex 10 = 0 from rfl,
          show indexEntries - 0 = 256 from rfl]
        rcases readLoop_index_fromStart (m := m) hget hten (by omega) (by omega) with ⟨hout, o₂, hstate₂⟩
        rw [← hlen] at hout
        refine ⟨o₂, ?_⟩
        rw [← hstate₂, ← hcast, ← hout]
        rcases readLoop (indexSlots a) (fun _ => m) h m 256 0 (firstBytes s i 10240) s' with
          ⟨out₂, t⟩ | ⟨_, out₂, t⟩
        · rfl
        · rfl
  · rw [hloop]
    have hindex : ¬ LacksIndex s i m := fun hlacks => absurd hlacks.2
        (by simp only [directBlocksQuantity]; omega)
    have hlen : deliveredLength s i m = 1024 * leadingBlocks s i := by
      have hmore := (hblocks (leadingBlocks s i)).1 (by omega)
      unfold deliveredLength
      simp only [hsize, directBlocksQuantity]
      split <;> omega
    refine ⟨o, ?_⟩
    rw [hlen] at hcast
    simp only [if_neg hindex, hlen, hcast, hstate]

end Loops

end Tfs
end TecnicoFs
