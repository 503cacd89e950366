import TecnicoFs.Tfs.WriteLaw

/-!
# Short writes — whether the bytes reported as written are in the file

A read from the same position goes through the same turns as the write did, so it finds the bytes.  Two
things go wrong: a write that runs out of blocks returns before it stores the size, and a read that ends
part-way in a block of the index block takes more of that block than was asked for.
-/

namespace TecnicoFs
namespace Tfs

open Lib

/-! ## Reading back -/

/-- Handle `g` as an open of file `i` leaves it, moved to offset `o`. -/
def withHandle (t : State) (g i o : ℕ) : State :=
  (t.markHandle g .taken).setEntry g ⟨i, o, 0⟩

/-- The `n` bytes of the buffer belong to file `i` from position `o` on: the size covers them, and reading
`n` bytes there on a fresh handle delivers them. -/
structure Counts (t : State) (i o n : ℕ) (buffer : ℕ → Byte) : Prop where
  size : o + n ≤ (t.inodeTable i).iSize
  readable : ∀ g < maxOpenFiles, ∃ u, tfsRead g n (withHandle t g i o) =
    some ((n : ℤ), (List.range n).map buffer, u)

/-- The blocks of file `i` hold the bytes of `J` turns of a write from offset `o` on, `n` bytes in all. -/
structure HoldsTurns (u : State) (i a o n J : ℕ) (buffer : ℕ → Byte) : Prop where
  index : (u.inodeTable i).iIndexBlock = a
  bound : a < 1024
  blocks : o / 1024 + J ≤ 266
  offset : (progress o n J).ofOffset ≤ 272384 * 267
  turns : ∀ l < J, ∃ b < 1024, slotValue u (fileSlot i (o / 1024 + l)) = (b : ℕ) ∧
    ∀ q < turnLength o n l, u.disk.fsData (b * 1024 + (progress o n l).ofOffset % 1024 + q) =
      buffer ((progress o n l).writen + q)
  more : ∀ l < J, (progress o n l).writen < n
  all : (progress o n J).writen = n

/-- What a read has delivered after `l` turns. -/
def bytesOf (buffer : ℕ → Byte) (o n l : ℕ) : List Byte :=
  (List.range (progress o n l).writen).map buffer

/-- The state of a read through handle `g` after `l` turns. -/
def readerAt (u : State) (g o n l : ℕ) : State :=
  u.setEntry g { u.openFileTable g with ofOffset := (progress o n l).ofOffset }

section Follow

variable {u : State} {g i a o n J l m index : ℕ} {buffer : ℕ → Byte} {slots : BlockSlots} {x : ℕ → Slot}
  {bound : ℕ → ℕ}

@[simp] theorem length_bytesOf : (bytesOf buffer o n l).length = (progress o n l).writen := by
  simp [bytesOf]

/-- One turn of a read that takes as many bytes as the turn of the write. -/
theorem HoldsTurns.turn (hu : HoldsTurns u i a o n J buffer) (hl : l < J) (hrow : Row i a slots x m)
    (hx : x index = fileSlot i (o / 1024 + l))
    (hexact : readInBlock (progress o n l).ofOffset (bound (progress o n l).writen) = turnLength o n l)
    (left : ℕ) :
    readLoop slots bound g n (left + 1) index (bytesOf buffer o n l) (readerAt u g o n l) =
      readLoop slots bound g n left (index + 1) (bytesOf buffer o n (l + 1))
        (readerAt u g o n (l + 1)) := by
  rcases hu.turns l hl with ⟨b, hb, hvalue, hbytes⟩
  have hoff : ((readerAt u g o n l).openFileTable g).ofOffset = (progress o n l).ofOffset := by
    simp [readerAt]
  have hget : dataBlockGet (slots.get (readerAt u g o n l) index) = some (b * 1024) := by
    rw [hrow.get (readerAt u g o n l) index hu.index, hx, readerAt, slotValue_setEntry, hvalue,
      dataBlockGet_natCast hb]
  -- the bytes of the turn are appended
  have hout : bytesOf buffer o n l ++ memread (readerAt u g o n l).disk.fsData
      (b * 1024 + (progress o n l).ofOffset % blockSize) (turnLength o n l) =
      bytesOf buffer o n (l + 1) := by
    have hread : memread (readerAt u g o n l).disk.fsData
        (b * 1024 + (progress o n l).ofOffset % blockSize) (turnLength o n l) =
        (List.range (turnLength o n l)).map fun q => buffer ((progress o n l).writen + q) := by
      apply List.map_congr_left
      intro q hq
      exact hbytes q (List.mem_range.1 hq)
    rw [hread]
    simp only [bytesOf, progress_succ, List.range_add, List.map_append, List.map_map]
    rfl
  have hbound : (progress o n (l + 1)).ofOffset ≤ 272384 * 267 :=
    (progress_ofOffset_mono o n (show l + 1 ≤ J by omega)).trans hu.offset
  have hsum : sizeAdd (progress o n l).ofOffset (progress o n (l + 1)).writen =
      (progress o n (l + 1)).ofOffset := by
    rw [progress_succ] at hbound ⊢
    simp only at hbound ⊢
    exact sizeAdd_of_lt (by omega)
  have hlt : (bytesOf buffer o n l).length < n := by
    rw [length_bytesOf]
    exact hu.more l hl
  rw [readLoop, if_pos hlt]
  simp only [hoff, length_bytesOf, hexact, hget, hout, hsum]
  congr 1
  simp [readerAt, State.setEntry]

/-- Several turns, by induction on their number. -/
theorem HoldsTurns.turns_add (hu : HoldsTurns u i a o n J buffer) (hrow : Row i a slots x m)
    (bound : ℕ → ℕ) (left d : ℕ) :
    ∀ (l index : ℕ), l + d ≤ J → (∀ e < d, x (index + e) = fileSlot i (o / 1024 + (l + e))) →
      (∀ e < d, readInBlock (progress o n (l + e)).ofOffset (bound (progress o n (l + e)).writen) =
        turnLength o n (l + e)) →
      readLoop slots bound g n (left + d) index (bytesOf buffer o n l) (readerAt u g o n l) =
        readLoop slots bound g n left (index + d) (bytesOf buffer o n (l + d))
          (readerAt u g o n (l + d)) := by
  induction d with
  | zero =>
      intro l index _ _ _
      rfl
  | succ d ih =>
      intro l index hJ hx hexact
      -- one turn, and then the other `d`
      have hfirst := hu.turn (g := g) (l := l) (by omega) hrow (by simpa using hx 0 (by omega))
        (by simpa using hexact 0 (by omega)) (left + d)
      have hrest := ih (l + 1) (index + 1) (by omega)
        (fun e he => by
          rw [show index + 1 + e = index + (e + 1) by omega, show l + 1 + e = l + (e + 1) by omega]
          exact hx (e + 1) (by omega))
        (fun e he => by
          rw [show l + 1 + e = l + (e + 1) by omega]
          exact hexact (e + 1) (by omega))
      rw [← Nat.add_assoc left d 1, hfirst, hrest, show index + 1 + d = index + (d + 1) by omega,
        show l + 1 + d = l + (d + 1) by omega]

/-- The result of a read loop that ends the call. -/
def ReadEnd.finish (e : ReadEnd) : ℤ × List Byte × State :=
  (castLong e.out.length, e.out, e.state)

/-- In `i_data_block` a turn of the read takes what the turn of the write stored. -/
theorem readInBlock_direct (o n l : ℕ) :
    readInBlock (progress o n l).ofOffset (n - (progress o n l).writen) = turnLength o n l := by
  rw [turnLength, readInBlock_eq_min, writeInBlock_eq_min]

/-- In the index block too, if the turn fills its block or is the first one. -/
theorem readInBlock_index (h : l = 0 ∨ (progress o n l).ofOffset % 1024 + turnLength o n l = 1024) :
    readInBlock (progress o n l).ofOffset n = turnLength o n l := by
  have hmin : turnLength o n l = min (1024 - (progress o n l).ofOffset % 1024)
      (n - (progress o n l).writen) := writeInBlock_eq_min _ _ _
  rw [readInBlock_eq_min]
  rcases h with rfl | hfill
  · rw [hmin, progress_zero, Nat.sub_zero]
  · omega

/-- The whole read, if it stays in `i_data_block`. -/
theorem HoldsTurns.readBlocks_direct (hu : HoldsTurns u i a o n J buffer) (hten : o / 1024 + J < 10) :
    readBlocks g i n (o / 1024) (readerAt u g o n 0) =
      (ReadEnd.done (o / 1024 + J) (bytesOf buffer o n J) (readerAt u g o n J)).finish := by
  have hleft : directBlocksQuantity - o / 1024 = 10 - o / 1024 - J + J := by
    simp only [directBlocksQuantity]
    omega
  have hloop := hu.turns_add (g := g) (row_direct i a) (fun read => n - read) (10 - o / 1024 - J)
    J 0 (o / 1024) (by omega)
    (fun e he => by
      unfold fileSlot
      rw [if_pos (by omega), Nat.zero_add])
    (fun e _ => readInBlock_direct o n (0 + e))
  rw [Nat.zero_add, ← hleft] at hloop
  have hall : ¬ (bytesOf buffer o n J).length < n := by
    rw [length_bytesOf, hu.all]
    omega
  have hget : dataBlockGet ((readerAt u g o n J).inodeTable i).iIndexBlock = some (a * 1024) := by
    rw [show ((readerAt u g o n J).inodeTable i).iIndexBlock = _ from hu.index, dataBlockGet_natCast hu.bound]
  rw [readLoop_of_le hall] at hloop
  unfold readBlocks
  rw [show ([] : List Byte) = bytesOf buffer o n 0 from rfl, hloop]
  simp only [hget, readLoop_of_le hall]
  rfl

/-- The read up to a turn behind `i_data_block`. -/
theorem HoldsTurns.readBlocks_index (hu : HoldsTurns u i a o n J buffer) {E : ℕ} (hE : E ≤ J)
    (hten : 10 ≤ o / 1024 + E) (hexact : ∀ l < E, 10 ≤ o / 1024 + l →
      l = 0 ∨ (progress o n l).ofOffset % 1024 + turnLength o n l = 1024) :
    readBlocks g i n (o / 1024) (readerAt u g o n 0) =
      (readLoop (indexSlots (a * 1024)) (fun _ => n) g n (266 - (o / 1024 + E)) (o / 1024 + E - 10)
        (bytesOf buffer o n E) (readerAt u g o n E)).finish := by
  have hblocks := hu.blocks
  have hentries : indexEntries = 256 := rfl
  -- D turns read direct blocks, and E - D turns of the second loop precede this one
  obtain ⟨D, hD⟩ : ∃ D, D = 10 - o / 1024 := ⟨_, rfl⟩
  have hdirect := hu.turns_add (g := g) (row_direct i a) (fun read => n - read) 0 D 0 (o / 1024)
    (by omega)
    (fun e he => by
      unfold fileSlot
      rw [if_pos (by omega), Nat.zero_add])
    (fun e _ => readInBlock_direct o n (0 + e))
  have hleft : directBlocksQuantity - o / 1024 = D := by
    simp only [directBlocksQuantity]
    omega
  rw [Nat.zero_add D, readLoop] at hdirect
  have hget : dataBlockGet ((readerAt u g o n D).inodeTable i).iIndexBlock = some (a * 1024) := by
    rw [show ((readerAt u g o n D).inodeTable i).iIndexBlock = _ from hu.index, dataBlockGet_natCast hu.bound]
  have hindirect : indirectIndex (o / 1024 + D) = o / 1024 + D - 10 := indirectIndex_of_ge (by omega)
  have hindex := hu.turns_add (g := g) (row_index i a) (fun _ => n) (266 - (o / 1024 + E)) (E - D)
    D (o / 1024 + D - 10) (by omega)
    (fun e he => by
      unfold fileSlot
      rw [if_neg (by omega)]
      congr 1
      omega)
    (fun e he => readInBlock_index (hexact (D + e) (by omega) (by omega)))
  rw [show 266 - (o / 1024 + E) + (E - D) = indexEntries - (o / 1024 + D - 10) by omega,
    show o / 1024 + D - 10 + (E - D) = o / 1024 + E - 10 by omega, show D + (E - D) = E by omega] at hindex
  unfold readBlocks
  rw [show ([] : List Byte) = bytesOf buffer o n 0 from rfl, hleft, hdirect]
  simp only [hget, hindirect, hindex]
  rcases readLoop (indexSlots (a * 1024)) (fun _ => n) g n (266 - (o / 1024 + E)) (o / 1024 + E - 10)
    (bytesOf buffer o n E) (readerAt u g o n E) with ⟨out, t⟩ | ⟨k, out, t⟩
  · rfl
  · rfl

/-- The turns before the last one fill their blocks. -/
theorem HoldsTurns.fills (hu : HoldsTurns u i a o n J buffer) (hl : l + 1 < J) :
    (progress o n l).ofOffset % 1024 + turnLength o n l = 1024 := by
  have hmod : (progress o n l).ofOffset % 1024 < 1024 := Nat.mod_lt _ (by omega)
  rw [turnLength_of_lt (hu.more (l + 1) hl)]
  omega

/-- The last turn of the write does not end part-way in a block of the index block, unless it is the
first. -/
def EndsWell (o n J : ℕ) : Prop :=
  ∀ l, J = l + 1 → 0 < l → 10 ≤ o / 1024 + l → (progress o n l).ofOffset % 1024 + turnLength o n l = 1024

/-- Reading back what the turns stored. -/
theorem HoldsTurns.readBlocks_eq (hu : HoldsTurns u i a o n J buffer) (hends : EndsWell o n J) :
    readBlocks g i n (o / 1024) (readerAt u g o n 0) =
      ((n : ℤ), (List.range n).map buffer, readerAt u g o n J) := by
  have hall : (progress o n J).writen = n := hu.all
  have hcast : castLong n = n := by
    have hbound := hu.offset
    have hle := add_writen_le_ofOffset o n J
    exact castLong_of_range (by omega) (by omega)
  have hfinish : ∀ k, (ReadEnd.done k (bytesOf buffer o n J) (readerAt u g o n J)).finish =
      ((n : ℤ), (List.range n).map buffer, readerAt u g o n J) := by
    intro k
    simp only [ReadEnd.finish, ReadEnd.out, ReadEnd.state, length_bytesOf, hall, hcast]
    rw [bytesOf, hall]
  by_cases hten : o / 1024 + J < 10
  · rw [hu.readBlocks_direct hten, hfinish]
  · rw [hu.readBlocks_index le_rfl (by omega), readLoop_of_le (by rw [length_bytesOf]; omega), hfinish]
    intro l hl hindex
    by_cases hlast : l + 1 = J
    · by_cases hzero : l = 0
      · exact Or.inl hzero
      · exact Or.inr (hends l hlast.symm (by omega) hindex)
    · exact Or.inr (hu.fills (by omega))

/-- Otherwise the read delivers more than was asked for. -/
theorem HoldsTurns.overrun (hu : HoldsTurns u i a o n J buffer) (hends : ¬ EndsWell o n J) :
    n < (readBlocks g i n (o / 1024) (readerAt u g o n 0)).2.1.length := by
  unfold EndsWell at hends
  push Not at hends
  rcases hends with ⟨l, rfl, hpos, hten, hpart⟩
  have hblocks := hu.blocks
  have hfit := turnLength_fit o n l
  rw [hu.readBlocks_index (E := l) (by omega) hten fun k hk _ => Or.inr (hu.fills (by omega))]
  rcases hu.turns l (by omega) with ⟨b, hb, hvalue, _⟩
  have hslot : fileSlot i (o / 1024 + l) = .entry i (o / 1024 + l - 10) := by
    unfold fileSlot
    rw [if_neg (by omega)]
  have hget : dataBlockGet ((indexSlots (a * 1024)).get (readerAt u g o n l) (o / 1024 + l - 10)) =
      some (b * 1024) := by
    rw [(row_index i a).get (readerAt u g o n l) _ hu.index, readerAt, slotValue_setEntry, ← hslot, hvalue,
      dataBlockGet_natCast hb]
  have hoff : ((readerAt u g o n l).openFileTable g).ofOffset = (progress o n l).ofOffset := by
    simp [readerAt]
  -- the turn takes its block to the end, and stores more than the rest of the `n` bytes
  have hmore : n < (progress o n l).writen + readInBlock (progress o n l).ofOffset n := by
    have hall := hu.all
    have hfirst : (progress o n 1).writen ≤ (progress o n l).writen := progress_writen_mono o n hpos
    have hone := turnLength_pos (hu.more 0 (by omega))
    rw [show (1 : ℕ) = 0 + 1 from rfl, progress_succ, progress_zero] at hfirst
    rw [progress_succ] at hall
    rw [readInBlock_eq_min]
    simp only at hfirst hall
    omega
  have hlt : (bytesOf buffer o n l).length < n := by
    rw [length_bytesOf]
    exact hu.more l (by omega)
  rw [show 266 - (o / 1024 + l) = 265 - (o / 1024 + l) + 1 by omega, readLoop, if_pos hlt]
  simp only [hget, hoff]
  rw [readLoop_of_le (by rw [List.length_append, length_memread, length_bytesOf]; omega)]
  simp only [ReadEnd.finish, ReadEnd.out, List.length_append, length_memread, length_bytesOf]
  exact hmore

end Follow

/-! ## What a write leaves to read -/

section Written

variable {s t v : State} {g h i a o n N J j : ℕ} {buffer : ℕ → Byte}

theorem shape_withHandle (ht : Shape t) (hi : i < 50) (ho : o ≤ 272384 * 267) :
    Shape (withHandle t g i o) := by
  refine ⟨?_, ?_, ht.sizes, ht.rootTaken, ⟨ht.root.iNodeType, ht.root.firstBlock⟩⟩
  · intro k
    by_cases hk : k = g
    · subst hk
      exact ⟨i, hi, by simp [withHandle]⟩
    · simpa [withHandle, hk] using ht.inumbers k
  · intro k
    by_cases hk : k = g
    · subst hk
      simpa [withHandle] using ho
    · simpa [withHandle, hk] using ht.offsets k

/-- A read of `n` bytes that the file has. -/
theorem tfsRead_withHandle (ht : Shape t) (hg : g < 20) (hi : i < 50)
    (hn : o + n ≤ (t.inodeTable i).iSize) : tfsRead g n (withHandle t g i o) =
      some (readBlocks g i n (o / 1024) (readerAt (withHandle t g i o) g o n 0)) := by
  have ho : o ≤ 272384 * 267 := by
    have := ht.sizes i
    omega
  have hnum : ((withHandle t g i o).openFileTable g).ofInumber = i := by simp [withHandle]
  have hoff : ((withHandle t g i o).openFileTable g).ofOffset = o := by simp [withHandle]
  have hsize : fileSize (withHandle t g i o) g = (t.inodeTable i).iSize := by
    rw [fileSize, hnum, Int.toNat_natCast]
    rfl
  have hstart : readStart (withHandle t g i o) g = o := by
    rw [readStart, hoff, hsize]
    omega
  have hlength : readLength (withHandle t g i o) g n = n := by
    rw [readLength, hstart, hsize]
    omega
  rw [(shape_withHandle ht hi ho).tfsRead_eq hg hnum hi, hstart, hlength]
  rfl

theorem turnLength_of_writen (hn : (progress o N J).writen = n) (hj : j < J) :
    turnLength o n j = turnLength o N j := by
  have hsame := progress_of_writen hn
  have hnext := hsame (j + 1) (by omega)
  rw [progress_succ, progress_succ, hsame j (by omega)] at hnext
  have hsum := (Counters.mk.inj hnext).1
  omega

/-- The turns of a write, read as those of a write of the bytes that it stored. -/
theorem AfterTurns.holdsTurns (ht : AfterTurns s h i a o N buffer J t) (ha : a < 1024)
    (hblocks : o / 1024 + J ≤ 266) (hall : ∀ l < J, (progress o N l).writen < N)
    (hn : (progress o N J).writen = n) (hdisk : v.disk = t.disk)
    (hindex : (v.inodeTable i).iIndexBlock = (t.inodeTable i).iIndexBlock)
    (hvalue : ∀ x, slotValue v x = slotValue t x) : HoldsTurns v i a o n J buffer := by
  have hsame := progress_of_writen hn
  constructor
  · rw [hindex]
    exact ht.head.index
  · exact ha
  · exact hblocks
  · have hbound := ht.head.offset_le
    rw [ht.ofOffset] at hbound
    rw [hsame J le_rfl]
    omega
  · intro l hl
    rcases ht.placed l hl with ⟨hsome, hbytes⟩
    -- each turn's block still holds the bytes that the turn stored
    have hslot := ht.head.inv.isSlot_fileSlot ht.head.live (k := o / 1024 + l) (by omega)
    rcases (ht.head.inv.valid _ hslot).resolve_left hsome with ⟨b, hb, hb'⟩
    refine ⟨b, hb, by rw [hvalue, hb'], ?_⟩
    intro q hq
    rw [turnLength_of_writen hn hl] at hq
    have hbyte := hbytes q hq
    rw [slotByte, hb', Int.toNat_natCast] at hbyte
    rw [hdisk, hsame l (by omega), Nat.add_assoc]
    exact hbyte
  · intro l hl
    rw [hsame l (by omega), ← hn]
    have hpos := turnLength_pos (hall l hl)
    have hle : (progress o N (l + 1)).writen ≤ (progress o N J).writen := progress_writen_mono o N hl
    rw [progress_succ] at hle
    simp only at hle
    omega
  · rw [hsame J le_rfl, hn]

/-- The bytes of a write count iff the size covers them and the write ended well. -/
theorem AfterTurns.counts_iff (ht : AfterTurns s h i a o N buffer J t) (ha : a < 1024)
    (hblocks : o / 1024 + J ≤ 266) (hall : ∀ l < J, (progress o N l).writen < N)
    (hn : (progress o N J).writen = n) (hv : Shape v) (hi : i < 50) (hdisk : v.disk = t.disk)
    (hindex : (v.inodeTable i).iIndexBlock = (t.inodeTable i).iIndexBlock)
    (hvalue : ∀ x, slotValue v x = slotValue t x) :
    Counts v i o n buffer ↔ o + n ≤ (v.inodeTable i).iSize ∧ EndsWell o n J := by
  have hholds : ∀ g, HoldsTurns (withHandle v g i o) i a o n J buffer := by
    intro g
    refine ht.holdsTurns (v := withHandle v g i o) ha hblocks hall hn hdisk hindex ?_
    intro x
    rw [← hvalue x, withHandle, slotValue_setEntry]
    cases x with
    | direct j k => rfl
    | index j => rfl
    | entry j k => rfl
  constructor
  · rintro ⟨hsize, hread⟩
    refine ⟨hsize, ?_⟩
    -- a write that does not end well reads back as too many bytes
    by_contra hends
    rcases hread 0 (by decide) with ⟨u, hEq⟩
    rw [tfsRead_withHandle hv (by omega) hi hsize, Option.some.injEq] at hEq
    have hover := (hholds 0).overrun (g := 0) hends
    rw [hEq] at hover
    simp at hover
  · rintro ⟨hsize, hends⟩
    refine ⟨hsize, ?_⟩
    intro g hg
    exact ⟨_, by rw [tfsRead_withHandle hv hg hi hsize, (hholds g).readBlocks_eq hends]⟩

end Written

/-! ## The law -/

/-- Turn `l`, counted from 0, is the last one of the write and finds its block. -/
structure LastTurn (s : State) (i o N l : ℕ) : Prop where
  more : (progress o N l).writen < N
  all : (progress o N (l + 1)).writen = N
  block : o / blockSize + l < directBlocksQuantity + indexEntries
  room : missingBlocks s i (o / blockSize) (l + 1) ≤ freeBlockCount s.disk

/-- Where the free blocks run out after the first turn, the file already reaches past the bytes written so
far; and if the last turn, not being the first, is in the index block, it fills its block. -/
structure LeavesCounting (s : State) (i o N : ℕ) : Prop where
  covered : ∀ l, 0 < l → OutOfBlocks s i o N l → o + (progress o N l).writen ≤ (s.inodeTable i).iSize
  filled : ∀ l, 0 < l → LastTurn s i o N l → directBlocksQuantity ≤ o / blockSize + l →
    (progress o N l).ofOffset % blockSize + turnLength o N l = blockSize

section Law

variable {s t : State} {h i a o n N J j l : ℕ} {buffer : ℕ → Byte} {hist : List (State × Call)} {r : ℤ}

theorem missingBlocks_mono (s : State) (i k : ℕ) : Monotone (missingBlocks s i k) := by
  apply monotone_nat_of_le_succ
  intro j
  rw [missingBlocks]
  exact Nat.le_add_right _ _

theorem OutOfBlocks.missing_succ (hout : OutOfBlocks s i o N J) :
    missingBlocks s i (o / 1024) (J + 1) = freeBlockCount s.disk + 1 := by
  rw [missingBlocks, if_pos hout.missing, hout.used]

/-- Blocks that were all there or allocated end before the free blocks run out. -/
theorem OutOfBlocks.le_of_room (hout : OutOfBlocks s i o N j)
    (hroom : missingBlocks s i (o / 1024) J ≤ freeBlockCount s.disk) : J ≤ j := by
  by_contra hlt
  have hle : missingBlocks s i (o / 1024) (j + 1) ≤ missingBlocks s i (o / 1024) J :=
    missingBlocks_mono s i _ (by omega)
  rw [hout.missing_succ] at hle
  omega

/-- The free blocks run out at one turn only. -/
theorem OutOfBlocks.unique (hout : OutOfBlocks s i o N J) (hout' : OutOfBlocks s i o N j) : j = J :=
  le_antisymm (hout.le_of_room hout'.used.ge) (hout'.le_of_room hout.used.ge)

/-- If they run out, there is no last turn. -/
theorem OutOfBlocks.not_lastTurn (hout : OutOfBlocks s i o N J) : ¬ LastTurn s i o N l := by
  intro hlast
  have hle : (progress o N (l + 1)).writen ≤ (progress o N J).writen :=
    progress_writen_mono o N (hout.le_of_room hlast.room)
  have hmore := hout.more
  rw [hlast.all] at hle
  omega

/-- A write that ran out of blocks ended well: all its turns filled their blocks. -/
theorem endsWell_of_more (hn : (progress o N J).writen = n) (hmore : n < N) : EndsWell o n J := by
  rintro l rfl _ _
  rw [progress_of_writen hn l (by omega), turnLength_of_writen hn (by omega),
    turnLength_of_lt (by rw [hn]; exact hmore)]
  have hmod : (progress o N l).ofOffset % 1024 < 1024 := Nat.mod_lt _ (by omega)
  omega

/-- The condition for a write that ran out of blocks after the turns. -/
theorem OutOfBlocks.leavesCounting_iff (hout : OutOfBlocks s i o N J) (hJ : 0 < J) :
    LeavesCounting s i o N ↔ o + (progress o N J).writen ≤ (s.inodeTable i).iSize := by
  constructor
  · intro hcount
    exact hcount.covered J hJ hout
  · intro hsize
    constructor
    · intro l _ hout'
      rw [hout.unique hout']
      exact hsize
    · intro l _ hlast _
      exact absurd hlast hout.not_lastTurn

/-- The condition for a write that found a block for every turn. -/
theorem Complete.leavesCounting_iff (hdone : Complete o N J) (hall : ∀ l < J, (progress o N l).writen < N)
    (hblocks : o / 1024 + J ≤ 266) (hroom : missingBlocks s i (o / 1024) J ≤ freeBlockCount s.disk) :
    LeavesCounting s i o N ↔ EndsWell o (progress o N J).writen J := by
  have hentries : indexEntries = 256 := rfl
  constructor
  · intro hcount
    rcases Nat.lt_or_ge (progress o N J).writen N with hmore | hge
    · exact endsWell_of_more rfl hmore
    · -- the write stored all its bytes, so its last turn is the last one
      have hN : (progress o N J).writen = N := le_antisymm (progress_writen_le o N J) hge
      rw [hN]
      rintro l rfl hl hten
      exact hcount.filled l hl
        ⟨hall l (by omega), hN, by simp only [directBlocksQuantity, blockSize]; omega, hroom⟩ hten
  · intro hends
    constructor
    · intro l _ hout
      -- no block was missing
      have hle := hout.le_of_room hroom
      have hblock := hout.block
      have hmore := hout.more
      have hmono : (progress o N J).writen ≤ (progress o N l).writen := progress_writen_mono o N hle
      rcases hdone with hN | hend
      · omega
      · omega
    · intro l hl hlast hten
      have hmore := hlast.more
      have hblock := hlast.block
      simp only [directBlocksQuantity, hentries, blockSize] at hblock
      have hlJ : J = l + 1 := by
        rcases Nat.lt_trichotomy J (l + 1) with hlt | hEq | hgt
        · have hmono : (progress o N J).writen ≤ (progress o N l).writen :=
            progress_writen_mono o N (show J ≤ l by omega)
          rcases hdone with hN | hend
          · omega
          · omega
        · exact hEq
        · have hnot := hall (l + 1) hgt
          rw [hlast.all] at hnot
          omega
      rw [hlJ, hlast.all] at hends
      exact hends l rfl hl hten

/-- After a run that truncates no file but empty ones, the bytes that a `tfs_write` reports are in the file
iff it leaves them counting. -/
theorem shortWrite_counts_iff (he : properCalls.Execution hist s)
    (hC : System.EachStep (fun s a => ¬ TruncatesFile s a) hist) (hopen : HandleOpen s h)
    (hnum : (s.openFileTable h).ofInumber = i) (ho : startPosition s h = o) (buffer : ℕ → Byte)
    (hw : tfsWrite h buffer N s = some (r, t)) (hr : 0 < r) :
    Counts t i o r.toNat buffer ↔ LeavesCounting s i o N := by
  have hs := (inv_of_execution he hC).1
  have hshape := shape_of_execution he
  have ht : Shape t := by
    rcases hshape.tfsWrite h buffer N with ⟨r', t', hEq, ht, _⟩
    rw [hw] at hEq
    cases hEq
    exact ht
  rcases hs.handle_file hopen with ⟨g, hg, hgh, htaken, j, hj, hlt, hlive, _⟩
  have hgh : g = h := by omega
  subst hgh
  have hji : j = i := by
    rw [hnum] at hj
    omega
  subst hji
  rcases hlive.refers_index with ⟨a, _, ha, hindex, _⟩
  have hN : 0 ≤ castInt N := by
    by_contra hneg
    unfold tfsWrite at hw
    simp only [getOpenFileEntry_natCast hg, show castInt N < 0 by omega, if_true] at hw
    cases hw
    omega
  have hfar : o < 272384 := by
    by_contra hfar
    rw [tfsWrite_far hshape hg hnum ha hindex buffer hN ho (by omega)] at hw
    cases hw
    omega
  rcases tfsWrite_turns hs hshape hg htaken hnum hlive ha hindex buffer hN ho hfar with
    ⟨J, u, hu, hall, hJ, hcases⟩
  have hpos : ∀ {w : ℕ}, w = (progress o N J).writen → 0 < w → 0 < J := by
    rintro w rfl hw
    by_contra hzero
    rw [show J = 0 by omega] at hw
    simp at hw
  rcases hcases with ⟨hout, hEq⟩ | ⟨hdone, hEq⟩
  · -- the call returned early, and the size is the old one
    rw [hw] at hEq
    cases hEq
    rw [Int.toNat_natCast, hu.counts_iff ha hJ hall rfl ht hlt rfl rfl (fun _ => rfl), hu.sizes,
      hout.leavesCounting_iff (hpos rfl (by omega))]
    exact and_iff_left (endsWell_of_more rfl hout.more)
  · -- the size is past the last byte written
    rw [hw] at hEq
    cases hEq
    have hsize : o + (progress o N J).writen ≤ ((growFile g j u).inodeTable j).iSize := by
      rw [growFile_iSize, hu.ofOffset]
      exact (add_writen_le_ofOffset o N J).trans (le_max_right _ _)
    rw [Int.toNat_natCast, hu.counts_iff ha hJ hall rfl ht hlt growFile_disk
      (sameNodes_growFile.iIndexBlock j) slotValue_growFile, hdone.leavesCounting_iff hall hJ
          (by have := hu.blocks; omega)]
    exact and_iff_right hsize

/-- A write to a fresh file that ends in its first block counts. -/
theorem leavesCounting_of_le (hN : o % blockSize + N ≤ blockSize) : LeavesCounting s i o N := by
  have hone : ∀ l, 0 < l → ¬ (progress o N l).writen < N := by
    intro l hl hmore
    have hfirst : (progress o N 1).writen ≤ (progress o N l).writen := progress_writen_mono o N hl
    rw [progress_one] at hfirst
    simp only [blockSize] at hN
    omega
  exact ⟨fun l hl hout => absurd hout.more (hone l hl), fun l hl hlast _ => absurd hlast.more (hone l hl)⟩

theorem performAll_writesBlock :
    (System.performAll (fileSystem.record OnOpenHandle) [.open (some slashA) tfsOCreat]
      ([], tfsInit.2)).any (fun x => ReadyToWrite x.2 1024 ∧
        (tfsWrite (0 : ℕ) (fun _ => 0x41) 1024 x.2).any (fun y => decide (0 < y.1)) = true) = true := by
  rw [tfsInit_eq]
  decide +kernel

theorem shortWrite_counts_iff_slashA : ∃ hist s r t, properCalls.Execution hist s ∧
    hist.map Prod.snd = [.open (some slashA) tfsOCreat] ∧
    tfsWrite (0 : ℕ) (fun _ => 0x41) 1024 s = some (r, t) ∧ 0 < r ∧ Counts t 1 0 r.toNat (fun _ => 0x41) := by
  rcases Machine.execution_of_any performAll_writesBlock with ⟨hist, s, he, hlabels, hready, hwrite⟩
  rcases hready with ⟨⟨hopen, hnum⟩, ⟨hstart, _⟩, _⟩
  rcases (Option.any_eq_true _ _).1 hwrite with ⟨⟨r, t⟩, hEq, hpos⟩
  have hr : 0 < r := of_decide_eq_true hpos
  have hflags : ∀ a ∈ hist.map Prod.snd, ∀ name flags, a = Call.open name flags →
      hasFlag flags tfsOTrunc = false := by
    intro a ha name flags hopen
    rw [hlabels] at ha
    rcases List.mem_singleton.1 ha with rfl
    cases hopen
    decide
  exact ⟨hist, s, r, t, he, hlabels, hEq, hr, (shortWrite_counts_iff he (eachStep_of_flags hflags) hopen hnum
    hstart _ hEq hr).2 (leavesCounting_of_le (by decide))⟩

end Law

/-! ## An exhausted disk -/

/-- Handle `h` is at the start of file `i`, which has no blocks. -/
structure EmptyFile (s : State) (h i : ℕ) : Prop where
  opened : HandleOpen s h
  inumber : (s.openFileTable h).ofInumber = i
  append : (s.openFileTable h).ofAppendFlag ≠ 1
  offset : (s.openFileTable h).ofOffset = 0
  size : (s.inodeTable i).iSize = 0
  slots : ∀ k < directBlocksQuantity + indexEntries, slotValue s (fileSlot i k) = -1

section Exhaust

variable {s t : State} {h i g j J N : ℕ} {buffer : ℕ → Byte} {hist : List (State × Call)}

theorem EmptyFile.missingBlocks_eq (hf : EmptyFile s h i) (hJ : J ≤ 266) : missingBlocks s i 0 J = J := by
  have hentries : indexEntries = 256 := rfl
  induction J with
  | zero => rfl
  | succ J ih =>
      rw [missingBlocks, ih (by omega), Nat.zero_add, if_pos (hf.slots J (by
        simp only [directBlocksQuantity]
        omega))]

theorem progress_writen_le_turns (o N j : ℕ) : (progress o N j).writen ≤ 1024 * j := by
  induction j with
  | zero => simp
  | succ j ih =>
      have hfit := turnLength_fit o N j
      rw [progress_succ]
      simp only
      omega

theorem EmptyFile.live (hf : EmptyFile s h i) (hs : Inv s) :
    h < 20 ∧ s.freeOpenFileEntries h = .taken ∧ LiveFile s i := by
  rcases hs.handle_file hf.opened with ⟨g, hg, hgh, htaken, j, hj, _, hlive, _⟩
  have hgh : g = h := by omega
  subst hgh
  have hji : j = i := by
    have := hf.inumber
    omega
  subst hji
  exact ⟨hg, htaken, hlive⟩

/-- Writing the largest file takes one free block for each turn. -/
theorem EmptyFile.tfsWrite_turns (hf : EmptyFile s h i) (he : properCalls.Execution hist s)
    (hC : System.EachStep (fun s a => ¬ TruncatesFile s a) hist) (buffer : ℕ → Byte) :
    ∃ a J t, AfterTurns s h i a 0 272384 buffer J t ∧ freeBlockCount t.disk + J = freeBlockCount s.disk ∧
      (J < 266 ∧ freeBlockCount t.disk = 0 ∧
          tfsWrite h buffer 272384 s = some (((progress 0 272384 J).writen : ℤ), t) ∨
        J = 266 ∧
          tfsWrite h buffer 272384 s = some (((progress 0 272384 J).writen : ℤ), growFile h i t)) := by
  have hs := (inv_of_execution he hC).1
  rcases hf.live hs with ⟨hh, htaken, hlive⟩
  rcases hlive.refers_index with ⟨a, _, ha, hindex, _⟩
  have hstart : startPosition s h = 0 := by
    rw [startPosition_eq, if_neg hf.append, hf.offset]
  rcases Tfs.tfsWrite_turns hs (shape_of_execution he) hh htaken hf.inumber hlive ha hindex buffer
    (N := 272384) (by decide) hstart (by omega) with ⟨J, t, ht, _, hJ, hcases⟩
  have hcount := ht.blocks
  rw [Nat.zero_div, hf.missingBlocks_eq (by omega)] at hcount
  refine ⟨a, J, t, ht, hcount, ?_⟩
  -- each turn takes a block, so the turns are counted by the free blocks
  rcases hcases with ⟨hout, hEq⟩ | ⟨hdone, hEq⟩
  · have hused := hout.used
    have hblock := hout.block
    rw [Nat.zero_div, hf.missingBlocks_eq (by omega)] at hused
    exact Or.inl ⟨by omega, by omega, hEq⟩
  · have hbound := progress_writen_le_turns 0 272384 J
    rcases hdone with hN | hend
    · exact Or.inr ⟨by omega, hEq⟩
    · exact Or.inr ⟨by omega, hEq⟩

/-- The turns of a write to a file leave the root directory alone. -/
theorem AfterTurns.sameBlock_root {a o : ℕ} (ht : AfterTurns s h i a o N buffer J t) (hs : Inv s)
    (hlive : LiveFile s i) : SameBlock s.disk.fsData t.disk.fsData 0 := by
  have hroot : slotValue s (.direct 0 0) = 0 := hs.rootBlock
  rcases ht.kept (.direct 0 0) ⟨hs.rootAllocated, by decide⟩ (by simp) (by omega) with ⟨hvalue, hbytes⟩
  intro p hp
  have hbyte := hbytes p hp fun l _ hEq => absurd hEq.symm (fileSlot_ne_root hlive.1 _)
  unfold slotByte at hbyte
  rw [hvalue, hroot] at hbyte
  simpa using hbyte

/-- Filling one file leaves the other empty files, the i-nodes and the root directory as they are. -/
theorem EmptyFile.fill (hf : EmptyFile s h i) (he : properCalls.Execution hist s)
    (hC : System.EachStep (fun s a => ¬ TruncatesFile s a) hist) (buffer : ℕ → Byte)
    (hroom : 266 ≤ freeBlockCount s.disk) :
    ∃ t, properCalls.Execution ((s, .write h buffer 272384) :: hist) t ∧
      freeBlockCount t.disk + 266 = freeBlockCount s.disk ∧ t.freeinodeTs = s.freeinodeTs ∧
      SameBlock s.disk.fsData t.disk.fsData 0 ∧ ∀ g j, g ≠ h → j ≠ i → EmptyFile s g j → EmptyFile t g j := by
  rcases hf.tfsWrite_turns he hC buffer with ⟨a, J, t, ht, hcount, ⟨_, hzero, _⟩ | ⟨rfl, hEq⟩⟩
  · omega
  have hs := (inv_of_execution he hC).1
  have hexec : exec (.write h buffer 272384) s = some (⟨(progress 0 272384 266).writen, []⟩, growFile h i t) :=
    congrArg (Option.map _) hEq
  refine ⟨growFile h i t, he.next ⟨hf.opened, _, hexec⟩, ?_, ?_, ?_, ?_⟩
  · rw [growFile_disk, hcount]
  · rw [sameNodes_growFile.freeinodeTs, ht.nodes.freeinodeTs]
  · rw [growFile_disk]
    exact ht.sameBlock_root hs (hf.live hs).2.2
  · -- another empty file that is open stays one
    intro g j hgh hji hg
    have hentry : (growFile h i t).openFileTable g = s.openFileTable g := by
      rw [growFile_openFileTable, ht.openFileTable, Function.update_of_ne hgh]
    constructor
    · rcases hg.opened with ⟨k, hk, hkg, htaken⟩
      exact ⟨k, hk, hkg, by rw [growFile_freeOpenFileEntries, ht.freeOpenFileEntries, htaken]⟩
    · rw [hentry, hg.inumber]
    · rw [hentry]
      exact hg.append
    · rw [hentry, hg.offset]
    · rw [growFile_iSize_of_ne hji, ht.sizes, hg.size]
    · intro k hk
      rw [slotValue_growFile, ht.others _ (hs.isSlot_fileSlot (hg.live hs).2.2 hk), hg.slots k hk]
      intro l _ hEq
      exact fileSlot_ne_of_ne hji hEq

/-- The next file gets a part of its blocks only, and its size stays 0. -/
theorem EmptyFile.not_counts (hf : EmptyFile s h i) (he : properCalls.Execution hist s)
    (hC : System.EachStep (fun s a => ¬ TruncatesFile s a) hist) (buffer : ℕ → Byte)
    (hsome : 0 < freeBlockCount s.disk) (hfew : freeBlockCount s.disk < 266) :
    ∃ r t, tfsWrite h buffer 272384 s = some (r, t) ∧ 0 < r ∧ (t.inodeTable i).iSize = 0 := by
  rcases hf.tfsWrite_turns he hC buffer with ⟨a, J, t, ht, hcount, ⟨_, hzero, hEq⟩ | ⟨rfl, _⟩⟩
  · refine ⟨_, t, hEq, ?_, by rw [ht.sizes, hf.size]⟩
    have hfirst : (progress 0 272384 1).writen ≤ (progress 0 272384 J).writen :=
      progress_writen_mono 0 272384 (by omega)
    rw [progress_one] at hfirst
    omega
  · omega

instance (s : State) (h i : ℕ) : Decidable (EmptyFile s h i) :=
  decidable_of_iff (HandleOpen s h ∧ (s.openFileTable h).ofInumber = i ∧
      (s.openFileTable h).ofAppendFlag ≠ 1 ∧ (s.openFileTable h).ofOffset = 0 ∧
      (s.inodeTable i).iSize = 0 ∧
      ∀ k < directBlocksQuantity + indexEntries, slotValue s (fileSlot i k) = -1)
    ⟨fun ⟨hopen, hnum, happend, hoffset, hsize, hslots⟩ =>
      ⟨hopen, hnum, happend, hoffset, hsize, hslots⟩,
      fun hf => ⟨hf.opened, hf.inumber, hf.append, hf.offset, hf.size, hf.slots⟩⟩

/-- Create `/a`, `/b`, `/c` and `/d`. -/
def fourFiles : List Call :=
  [.open (some slashA) tfsOCreat, .open (some slashB) tfsOCreat,
    .open (some (slash 0x63 (by decide))) tfsOCreat, .open (some (slash 0x64 (by decide))) tfsOCreat]

theorem performAll_fourFiles :
    (System.performAll (fileSystem.record OnOpenHandle) fourFiles ([], tfsInit.2)).any
      (fun x => freeBlockCount x.2.disk = 1019 ∧ x.2.freeinodeTs 5 = .free ∧
        tfsLookup (some (slash 0x65 (by decide))) x.2 = -1 ∧ ∀ h < 4, EmptyFile x.2 h (h + 1)) = true := by
  rw [tfsInit_eq]
  decide +kernel

/-- `/a`, `/b` and `/c` are full, `/d` is empty, there is no `/e`, and less than 266 blocks are left. -/
structure AlmostFull (hist : List (State × Call)) (s : State) : Prop where
  run : properCalls.Execution hist s
  labels : hist.map Prod.snd = [.write 2 (fun _ => 0x41) 272384, .write 1 (fun _ => 0x41) 272384,
    .write 0 (fun _ => 0x41) 272384] ++ fourFiles.reverse
  steps : System.EachStep (fun s a => ¬ TruncatesFile s a) hist
  last : EmptyFile s 3 4
  count : freeBlockCount s.disk = 221
  inode : s.freeinodeTs 5 = .free
  absent : tfsLookup (some (slash 0x65 (by decide))) s = -1

/-- Fill `/a`, `/b` and `/c`. -/
theorem exists_almostFull : ∃ hist s, AlmostFull hist s := by
  rcases Machine.execution_of_any performAll_fourFiles with ⟨hist, s, he, hlabels, hcount, hnode, hlook, hempty⟩
  simp only at hcount hnode hlook hempty
  have hC₀ : System.EachStep (fun s a => ¬ TruncatesFile s a) hist := by
    apply eachStep_of_flags
    intro a ha name flags hopen
    have hnone : ∀ c ∈ fourFiles, ∀ name flags, c = Call.open name flags → flags = tfsOCreat := by
      simp [fourFiles]
    rw [hlabels, List.mem_reverse] at ha
    rw [hnone a ha name flags hopen]
    decide
  have hs := (inv_of_execution he hC₀).1
  have hkeeps : ∀ (u : State) (h : ℕ), ¬ TruncatesFile u (.write h (fun _ => 0x41) 272384) :=
    fun _ _ => id
  -- each file takes its 266 blocks and leaves the others empty
  rcases (hempty 0 (by omega)).fill he hC₀ (fun _ => 0x41) (by omega) with
    ⟨s₁, he₁, hcount₁, hnodes₁, hroot₁, hkeep₁⟩
  have hC₁ := System.eachStep_cons.2 ⟨hkeeps s 0, hC₀⟩
  have hempty₁ : ∀ h, 0 < h → h < 4 → EmptyFile s₁ h (h + 1) :=
    fun h hpos hlt => hkeep₁ h (h + 1) (by omega) (by omega) (hempty h hlt)
  rcases (hempty₁ 1 (by omega) (by omega)).fill he₁ hC₁ (fun _ => 0x41) (by omega) with
    ⟨s₂, he₂, hcount₂, hnodes₂, hroot₂, hkeep₂⟩
  have hC₂ := System.eachStep_cons.2 ⟨hkeeps s₁ 1, hC₁⟩
  have hempty₂ : ∀ h, 1 < h → h < 4 → EmptyFile s₂ h (h + 1) :=
    fun h hpos hlt => hkeep₂ h (h + 1) (by omega) (by omega) (hempty₁ h (by omega) hlt)
  rcases (hempty₂ 2 (by omega) (by omega)).fill he₂ hC₂ (fun _ => 0x41) (by omega) with
    ⟨s₃, he₃, hcount₃, hnodes₃, hroot₃, hkeep₃⟩
  have hC₃ := System.eachStep_cons.2 ⟨hkeeps s₂ 2, hC₂⟩
  have hlast := hkeep₃ 3 4 (by omega) (by omega) (hempty₂ 3 (by omega) (by omega))
  have hroot : SameBlock s.disk.fsData s₃.disk.fsData 0 := (hroot₁.trans hroot₂).trans hroot₃
  refine ⟨_, s₃, he₃, by simp [hlabels], hC₃, hlast, by omega, ?_, ?_⟩
  · rw [hnodes₃, hnodes₂, hnodes₁, hnode]
  · rw [tfsLookup_of_sameBlock hs (inv_of_execution he₃ hC₃).1 hroot, hlook]

/-- Writing `/d` then reports bytes, and the file is empty. -/
theorem exhaustedDisk_loses_write : ∃ hist s r t, properCalls.Execution hist s ∧
    hist.map Prod.snd = [.write 2 (fun _ => 0x41) 272384, .write 1 (fun _ => 0x41) 272384,
      .write 0 (fun _ => 0x41) 272384] ++ fourFiles.reverse ∧
    tfsWrite (3 : ℕ) (fun _ => 0x41) 272384 s = some (r, t) ∧ 0 < r ∧ startPosition s 3 = 0 ∧
    (s.openFileTable 3).ofInumber = (4 : ℕ) ∧ (t.inodeTable 4).iSize = 0 ∧
    ¬ Counts t 4 0 r.toNat (fun _ => 0x41) := by
  rcases exists_almostFull with ⟨hist, s, hfull⟩
  have hcount := hfull.count
  rcases hfull.last.not_counts hfull.run hfull.steps (fun _ => 0x41) (by omega) (by omega) with
    ⟨r, t, hEq, hr, hsize⟩
  refine ⟨_, s, r, t, hfull.run, hfull.labels, hEq, hr, ?_, hfull.last.inumber, hsize, ?_⟩
  · rw [startPosition_eq, if_neg hfull.last.append, hfull.last.offset]
  · intro hcounts
    have hcover := hcounts.size
    omega

end Exhaust

end Tfs
end TecnicoFs
