import TecnicoFs.Tfs.ReadLaw

/-!
# Block arithmetic — every index, copy, sum and difference of a transfer

The loops again, with the condition that the source tests at each turn instead of a number of slots, with
fuel, and with a record of the arithmetic that they do.  They end, they compute what the model of the calls
computes, and whatever calls came before, everything on the record is in range.
-/

namespace TecnicoFs
namespace Tfs

open Lib

/-! ## What is recorded -/

/-- A piece of the arithmetic of a transfer. -/
inductive Arith
  /-- `(int)` of an offset -/
  | cast (offset : ℕ)
  /-- an index into a row of `size` block numbers -/
  | slot (index : ℤ) (size : ℕ)
  /-- a `memcpy` to or from bytes `start, start + 1, …` of a block, `n` of them -/
  | copy (start n : ℕ)
  /-- the difference of two unsigned numbers -/
  | sub (a b : ℕ)
  /-- the sum that becomes an `of_offset` -/
  | advance (offset n : ℕ)

def Arith.InRange : Arith → Prop
  | .cast offset => offset < 2 ^ 31
  | .slot index size => 0 ≤ index ∧ index < size
  | .copy start n => start + n ≤ blockSize
  | .sub a b => b ≤ a
  | .advance offset n => offset + n < 2 ^ 31

/-- A result that may be missing for want of fuel, and the arithmetic on the way to it. -/
abbrev Recorded (α : Type) := List Arith × Option α

/-! ## The loops with their conditions -/

/-- `for(; index < size && writen < to_write; index++)` -/
def writeTurns (size : ℕ) (slots : BlockSlots) (h : ℕ) (buffer : ℕ → Byte) (toWrite : ℕ) :
    ℕ → ℤ → ℕ → State → Recorded WriteEnd
  | 0, _, _, _ => ([], none)
  | fuel + 1, index, writen, s =>
      if index < size ∧ writen < toWrite then
        let offset := (s.openFileTable h).ofOffset
        let n := writeInBlock offset toWrite writen
        let record := [.sub blockSize (offset % blockSize), .sub toWrite writen, .slot index size]
        let s := allocSlot slots index.toNat s
        match dataBlockGet (slots.get s index.toNat) with
        | none => (record, some (.noBlock writen s))
        | some block =>
            let s := s.setData (memcpy s.disk.fsData (block + offset % blockSize)
              (fun k => buffer (writen + k)) n)
            let writen := writen + n
            let s := s.setEntry h { s.openFileTable h with ofOffset := sizeAdd offset writen }
            let rest := writeTurns size slots h buffer toWrite fuel (index + 1) writen s
            (record ++ [.copy (offset % blockSize) n, .advance offset writen] ++ rest.1, rest.2)
      else
        ([], some (.done index.toNat writen s))

/-- `for(; index < size && read < to_read; index++)`; `limit` is the arithmetic behind `bound`. -/
def readTurns (size : ℕ) (slots : BlockSlots) (bound : ℕ → ℕ) (limit : ℕ → List Arith) (h toRead : ℕ) :
    ℕ → ℤ → List Byte → State → Recorded ReadEnd
  | 0, _, _, _ => ([], none)
  | fuel + 1, index, out, s =>
      if index < size ∧ out.length < toRead then
        let offset := (s.openFileTable h).ofOffset
        let n := readInBlock offset (bound out.length)
        let record := .sub blockSize (offset % blockSize) :: limit out.length ++ [.slot index size]
        match dataBlockGet (slots.get s index.toNat) with
        | none => (record, some (.noBlock out s))
        | some block =>
            let out := out ++ memread s.disk.fsData (block + offset % blockSize) n
            let s := s.setEntry h
              { s.openFileTable h with ofOffset := sizeAdd offset out.length }
            let rest := readTurns size slots bound limit h toRead fuel (index + 1) out s
            (record ++ [.copy (offset % blockSize) n, .advance offset out.length] ++ rest.1, rest.2)
      else
        ([], some (.done index.toNat out s))

/-- The two loops of `tfs_write`, with fuel for each. -/
def writeBlocksRecorded (fuel h i : ℕ) (buffer : ℕ → Byte) (toWrite : ℕ) (index : ℤ) (s : State) :
    Recorded (ℤ × State) :=
  let first := writeTurns directBlocksQuantity (directSlots i) h buffer toWrite fuel index 0 s
  match first.2 with
  | none => (first.1, none)
  | some (.noBlock writen s) => (first.1, some (castLong writen, s))
  | some (.done index writen s) =>
      match dataBlockGet (s.inodeTable i).iIndexBlock with
      | none => (first.1, some (-1, s))
      | some a =>
          let second := writeTurns indexEntries (indexSlots a) h buffer toWrite fuel (indirectIndex index) writen s
          let record := first.1 ++ second.1
          match second.2 with
          | none => (record, none)
          | some (.noBlock writen s) => (record, some (castLong writen, s))
          | some (.done _ writen s) => (record, some (castLong writen, growFile h i s))

def writeRecorded (fuel : ℕ) (fhandle : ℤ) (buffer : ℕ → Byte) (toWrite : ℕ) (s : State) :
    Recorded (ℤ × State) :=
  match getOpenFileEntry fhandle with
  | none => ([], some (-1, s))
  | some h =>
      if castInt toWrite < 0 then
        ([], some (-1, s))
      else
        match inodeGet (s.openFileTable h).ofInumber with
        | none => ([], some (-1, s))
        | some i =>
            let s := seekForAppend h i s
            let offset := (s.openFileTable h).ofOffset
            let rest := writeBlocksRecorded fuel h i buffer toWrite (blockIndex offset) s
            (.cast offset :: rest.1, rest.2)

/-- The two loops of `tfs_read`, with fuel for each. -/
def readBlocksRecorded (fuel h i toRead : ℕ) (index : ℤ) (s : State) : Recorded (ℤ × List Byte × State) :=
  let first := readTurns directBlocksQuantity (directSlots i) (fun read => toRead - read)
    (fun read => [.sub toRead read]) h toRead fuel index [] s
  match first.2 with
  | none => (first.1, none)
  | some (.noBlock out s) => (first.1, some (castLong out.length, out, s))
  | some (.done index out s) =>
      match dataBlockGet (s.inodeTable i).iIndexBlock with
      | none => (first.1, some (-1, out, s))
      | some a =>
          let second := readTurns indexEntries (indexSlots a) (fun _ => toRead) (fun _ => []) h toRead fuel
            (indirectIndex index) out s
          let record := first.1 ++ second.1
          match second.2 with
          | none => (record, none)
          | some (.noBlock out s) => (record, some (castLong out.length, out, s))
          | some (.done _ out s) => (record, some (castLong out.length, out, s))

def readRecorded (fuel : ℕ) (fhandle : ℤ) (len : ℕ) (s : State) : Recorded (ℤ × List Byte × State) :=
  match getOpenFileEntry fhandle with
  | none => ([], some (-1, [], s))
  | some h =>
      match inodeGet (s.openFileTable h).ofInumber with
      | none => ([], some (-1, [], s))
      | some i =>
          let s := clampOffset h i s
          let size := (s.inodeTable i).iSize
          let offset := (s.openFileTable h).ofOffset
          let rest := readBlocksRecorded fuel h i (readCount size offset len) (blockIndex offset) s
          (.sub size offset :: .cast offset :: rest.1, rest.2)

/-! ## The loops end, with everything in range -/

section Loops

variable {s : State} {h size : ℕ}

/-- The result is there, and the record is in range. -/
structure Ends {α : Type} (x : Recorded α) (r : α) : Prop where
  result : x.2 = some r
  inRange : ∀ c ∈ x.1, c.InRange

/-- A write loop, by induction on the slots that are left. -/
theorem writeTurns_ends (slots : BlockSlots) (buffer : ℕ → Byte) (toWrite left : ℕ) :
    ∀ (index v writen fuel : ℕ) (s : State), (s.openFileTable h).ofOffset ≤ 272384 * (v + 1) →
      writen ≤ 1024 * v → v + left ≤ 266 → left = size - index → left < fuel →
      Ends (writeTurns size slots h buffer toWrite fuel index writen s)
        (writeLoop slots h buffer toWrite left index writen s) := by
  induction left with
  | zero =>
      intro index v writen fuel s _ _ _ hleft hfuel
      obtain ⟨fuel, rfl⟩ : ∃ f, fuel = f + 1 := ⟨fuel - 1, by omega⟩
      have hend : ¬ ((index : ℤ) < size ∧ writen < toWrite) := by omega
      rw [writeTurns, if_neg hend]
      exact ⟨rfl, by simp⟩
  | succ left ih =>
      intro index v writen fuel s hoff hw hv hleft hfuel
      obtain ⟨fuel, rfl⟩ : ∃ f, fuel = f + 1 := ⟨fuel - 1, by omega⟩
      rw [writeTurns, writeLoop]
      by_cases hmore : writen < toWrite
      · have hturn : (index : ℤ) < size ∧ writen < toWrite := by omega
        have hfit := writeInBlock_fit (s.openFileTable h).ofOffset toWrite writen
        have hslot : 0 ≤ (index : ℤ) ∧ (index : ℤ) < size := by omega
        rw [if_pos hturn, if_pos hmore]
        simp only [Int.toNat_natCast]
        generalize writeInBlock (s.openFileTable h).ofOffset toWrite writen = n at hfit ⊢
        rcases hget : dataBlockGet (slots.get (allocSlot slots index s) index) with _ | block
        · refine ⟨rfl, ?_⟩
          simp only [List.mem_cons, List.not_mem_nil, or_false]
          rintro c (rfl | rfl | rfl)
          · exact (Nat.mod_lt _ (by decide)).le
          · exact hmore.le
          · exact hslot
        · have hsum : sizeAdd (s.openFileTable h).ofOffset (writen + n) =
              (s.openFileTable h).ofOffset + (writen + n) := sizeAdd_of_lt (by omega)
          simp only [hsum]
          -- the state after the turn
          generalize hu : State.setEntry _ h _ = u
          have hoffU : (u.openFileTable h).ofOffset = (s.openFileTable h).ofOffset + (writen + n) := by
            simp [← hu]
          have hrest := ih (index + 1) (v + 1) (writen + n) fuel u (by omega) (by omega) (by omega) (by omega)
            (by omega)
          rw [Nat.cast_succ] at hrest
          refine ⟨hrest.result, ?_⟩
          simp only [List.mem_append, List.mem_cons, List.not_mem_nil, or_false]
          rintro c (((rfl | rfl | rfl) | (rfl | rfl)) | hc)
          · exact (Nat.mod_lt _ (by decide)).le
          · exact hmore.le
          · exact hslot
          · exact hfit
          · show (s.openFileTable h).ofOffset + (writen + n) < 2 ^ 31
            omega
          · exact hrest.inRange c hc
      · have hend : ¬ ((index : ℤ) < size ∧ writen < toWrite) := by omega
        rw [if_neg hend, if_neg hmore, Int.toNat_natCast]
        exact ⟨rfl, by simp⟩

/-- A read loop, in the same way. -/
theorem readTurns_ends (slots : BlockSlots) (bound : ℕ → ℕ) {limit : ℕ → List Arith} {toRead : ℕ}
    (hlimit : ∀ read < toRead, ∀ c ∈ limit read, c.InRange) (left : ℕ) :
    ∀ (index v fuel : ℕ) (out : List Byte) (s : State), (s.openFileTable h).ofOffset ≤ 272384 * (v + 1) →
      out.length ≤ 1024 * v → v + left ≤ 266 → left = size - index → left < fuel →
      Ends (readTurns size slots bound limit h toRead fuel index out s)
        (readLoop slots bound h toRead left index out s) := by
  induction left with
  | zero =>
      intro index v fuel out s _ _ _ hleft hfuel
      obtain ⟨fuel, rfl⟩ : ∃ f, fuel = f + 1 := ⟨fuel - 1, by omega⟩
      -- no block is left, and the source's own condition stops the loop
      have hend : ¬ ((index : ℤ) < size ∧ out.length < toRead) := by omega
      rw [readTurns, if_neg hend]
      exact ⟨rfl, by simp⟩
  | succ left ih =>
      intro index v fuel out s hoff hout hv hleft hfuel
      obtain ⟨fuel, rfl⟩ : ∃ f, fuel = f + 1 := ⟨fuel - 1, by omega⟩
      rw [readTurns, readLoop]
      by_cases hmore : out.length < toRead
      · have hturn : (index : ℤ) < size ∧ out.length < toRead := by omega
        have hfit := readInBlock_fit (s.openFileTable h).ofOffset (bound out.length)
        have hslot : 0 ≤ (index : ℤ) ∧ (index : ℤ) < size := by omega
        rw [if_pos hturn, if_pos hmore]
        simp only [Int.toNat_natCast]
        generalize readInBlock (s.openFileTable h).ofOffset (bound out.length) = n at hfit ⊢
        rcases hget : dataBlockGet (slots.get s index) with _ | block
        · -- the block is missing: what the turn computed before it returns
          refine ⟨rfl, ?_⟩
          simp only [List.mem_append, List.mem_cons, List.not_mem_nil, or_false]
          rintro c ((rfl | hc) | rfl)
          · exact (Nat.mod_lt _ (by decide)).le
          · exact hlimit _ hmore c hc
          · exact hslot
        · have hlen : (out ++ memread s.disk.fsData (block + (s.openFileTable h).ofOffset % blockSize)
              n).length = out.length + n := by
            rw [List.length_append, length_memread]
          simp only
          generalize out ++ memread s.disk.fsData _ n = out₁ at hlen ⊢
          -- the running total is at most 1024 for each turn, so the advance does not wrap
          have hsum : sizeAdd (s.openFileTable h).ofOffset out₁.length =
              (s.openFileTable h).ofOffset + out₁.length := sizeAdd_of_lt (by omega)
          rw [hsum]
          generalize hu : State.setEntry _ h _ = u
          have hoffU : (u.openFileTable h).ofOffset = (s.openFileTable h).ofOffset + out₁.length := by
            simp [← hu]
          have hrest := ih (index + 1) (v + 1) fuel out₁ u (by omega) (by omega) (by omega) (by omega)
              (by omega)
          rw [Nat.cast_succ] at hrest
          refine ⟨hrest.result, ?_⟩
          simp only [List.mem_append, List.mem_cons, List.not_mem_nil, or_false]
          -- the cut at the block's end, the limit, the slot, the memcpy, the new offset, and the rest
          rintro c ((((rfl | hc) | rfl) | (rfl | rfl)) | hc)
          · exact (Nat.mod_lt _ (by decide)).le
          · exact hlimit _ hmore c hc
          · exact hslot
          · exact hfit
          · show (s.openFileTable h).ofOffset + out₁.length < 2 ^ 31
            omega
          · exact hrest.inRange c hc
      · have hend : ¬ ((index : ℤ) < size ∧ out.length < toRead) := by omega
        rw [if_neg hend, if_neg hmore, Int.toNat_natCast]
        exact ⟨rfl, by simp⟩

/-- Where the first loop stands at an offset that any calls can lead to: before it are `v` turns of
the largest advance, and a handle past all blocks makes no turn. -/
theorem exists_turnsBefore {offset index : ℕ} (hoff : offset ≤ 272384 * 267) (hk : offset / 1024 = index) :
    ∃ v, offset ≤ 272384 * (v + 1) ∧ v + (directBlocksQuantity - index) ≤ 266 ∧
      (v + (directBlocksQuantity - index) ≤ 10 ∨ 266 ≤ index ∧ v = 266) := by
  simp only [directBlocksQuantity]
  by_cases hfar : 266 ≤ index
  · exact ⟨266, by omega, by omega, Or.inr ⟨hfar, rfl⟩⟩
  · exact ⟨0, by omega, by omega, Or.inl (by omega)⟩

theorem inRange_append {first second : List Arith} (hfirst : ∀ c ∈ first, c.InRange)
    (hsecond : ∀ c ∈ second, c.InRange) : ∀ c ∈ first ++ second, c.InRange := by
  intro c hc
  rcases List.mem_append.1 hc with hc | hc
  · exact hfirst c hc
  · exact hsecond c hc

/-- The loops of a write from an offset that any calls can lead to. -/
theorem writeBlocksRecorded_ends {fuel : ℕ} (i : ℕ) (buffer : ℕ → Byte) (toWrite : ℕ)
    (hoff : (s.openFileTable h).ofOffset ≤ 272384 * 267)
    (hfuel : indexEntries < fuel) : Ends (writeBlocksRecorded fuel h i buffer toWrite
      ((s.openFileTable h).ofOffset / 1024 : ℕ) s)
      (writeBlocks h i buffer toWrite ((s.openFileTable h).ofOffset / 1024) s) := by
  have hentries : indexEntries = 256 := rfl
  generalize hk : (s.openFileTable h).ofOffset / 1024 = index
  rcases exists_turnsBefore hoff hk with ⟨v, hv, hleft, hvleft⟩
  have hfirst := writeTurns_ends (directSlots i) buffer toWrite
    (directBlocksQuantity - index) index v 0 fuel s hv (by omega) hleft rfl
    (by simp only [directBlocksQuantity]; omega)
  unfold writeBlocksRecorded writeBlocks
  simp only [hfirst.result]
  rcases writeLoop_moves buffer toWrite (fun s k => moved_allocSlot_direct h i k s)
    (directBlocksQuantity - index) index v 0 s hv (by omega) hleft with
    ⟨v₁, hv₁, offset, hoffset, hwriten, hmoved⟩
  rcases hloop : writeLoop (directSlots i) h buffer toWrite (directBlocksQuantity - index) index 0 s with
    ⟨w, u⟩ | ⟨index₁, w, u⟩
  · exact ⟨rfl, hfirst.inRange⟩
  rw [hloop] at hwriten hmoved
  simp only [WriteEnd.writen, WriteEnd.state] at hwriten hmoved
  simp only
  rcases dataBlockGet (u.inodeTable i).iIndexBlock with _ | a
  · exact ⟨rfl, hfirst.inRange⟩
  have hsecond : v₁ + (indexEntries - indirectIndex index₁) ≤ 266 := by
    -- ten turns at most before the second loop, or no turn left in either
    rcases hvleft with hnear | ⟨hfar, rfl⟩
    · omega
    · rcases slotsLeft_of_le hfar with ⟨hnone, hnone₂⟩
      rw [hnone] at hloop hv₁
      cases hloop
      omega
  have hends := writeTurns_ends (indexSlots a) buffer toWrite
    (indexEntries - indirectIndex index₁) (indirectIndex index₁) v₁ w fuel u
    (by rw [hmoved.ofOffset]; exact hoffset) hwriten hsecond rfl (by omega)
  simp only [hends.result]
  have hrecord := inRange_append hfirst.inRange hends.inRange
  rcases writeLoop (indexSlots a) h buffer toWrite (indexEntries - indirectIndex index₁) (indirectIndex index₁) w u
    with ⟨w₂, u₂⟩ | ⟨index₂, w₂, u₂⟩
  · exact ⟨rfl, hrecord⟩
  · simp only [growFile_eq]
    exact ⟨rfl, hrecord⟩

/-- The loops of a read. -/
theorem readBlocksRecorded_ends {fuel : ℕ} (i toRead : ℕ)
    (hoff : (s.openFileTable h).ofOffset ≤ 272384 * 267) (hfuel : indexEntries < fuel) :
        Ends (readBlocksRecorded fuel h i toRead
      ((s.openFileTable h).ofOffset / 1024 : ℕ) s)
      (readBlocks h i toRead ((s.openFileTable h).ofOffset / 1024) s) := by
  have hentries : indexEntries = 256 := rfl
  generalize hk : (s.openFileTable h).ofOffset / 1024 = index
  rcases exists_turnsBefore hoff hk with ⟨v, hv, hleft, hvleft⟩
  have hlimit : ∀ read < toRead, ∀ c ∈ [Arith.sub toRead read], c.InRange := by
    intro read hread c hc
    rcases List.mem_singleton.1 hc with rfl
    exact hread.le
  have hfirst := readTurns_ends (directSlots i) (fun read => toRead - read) hlimit
    (directBlocksQuantity - index) index v fuel [] s hv (by simp) hleft rfl
    (by simp only [directBlocksQuantity]; omega)
  unfold readBlocksRecorded readBlocks
  simp only [hfirst.result]
  rcases readLoop_moves (h := h) (directSlots i) (fun read => toRead - read) toRead
    (directBlocksQuantity - index) index v [] s hv (by simp) hleft with
    ⟨v₁, hv₁, offset, hoffset, hlen, hstate, _⟩
  rcases hloop : readLoop (directSlots i) (fun read => toRead - read) h toRead (directBlocksQuantity - index)
    index [] s with ⟨out, u⟩ | ⟨index₁, out, u⟩
  · exact ⟨rfl, hfirst.inRange⟩
  rw [hloop] at hlen hstate
  simp only [ReadEnd.out, ReadEnd.state] at hlen hstate
  simp only
  rcases dataBlockGet (u.inodeTable i).iIndexBlock with _ | a
  · exact ⟨rfl, hfirst.inRange⟩
  have hsecond : v₁ + (indexEntries - indirectIndex index₁) ≤ 266 := by
    -- ten turns at most before the second loop, or no turn left in either
    rcases hvleft with hnear | ⟨hfar, rfl⟩
    · omega
    · rcases slotsLeft_of_le hfar with ⟨hnone, hnone₂⟩
      rw [hnone] at hloop hv₁
      cases hloop
      omega
  have hoffU : (u.openFileTable h).ofOffset ≤ 272384 * (v₁ + 1) := by
    rw [hstate]
    simpa using hoffset
  have hnone : ∀ read < toRead, ∀ c ∈ ([] : List Arith), c.InRange := by simp
  have hends := readTurns_ends (indexSlots a) (fun _ => toRead) hnone
    (indexEntries - indirectIndex index₁) (indirectIndex index₁) v₁ fuel out u hoffU hlen hsecond rfl
    (by omega)
  simp only [hends.result]
  have hrecord := inRange_append hfirst.inRange hends.inRange
  rcases readLoop (indexSlots a) (fun _ => toRead) h toRead (indexEntries - indirectIndex index₁)
    (indirectIndex index₁) out u with ⟨out₂, u₂⟩ | ⟨index₂, out₂, u₂⟩
  · exact ⟨rfl, hrecord⟩
  · exact ⟨rfl, hrecord⟩

end Loops

/-! ## The calls -/

section Calls

variable {s : State} {fuel : ℕ}

theorem Shape.writeRecorded_ends (hs : Shape s) (fhandle : ℤ) (buffer : ℕ → Byte) (toWrite : ℕ)
    (hfuel : indexEntries < fuel) : ∃ x, Tfs.tfsWrite fhandle buffer toWrite s = some x ∧
      Ends (writeRecorded fuel fhandle buffer toWrite s) x := by
  unfold Tfs.tfsWrite writeRecorded
  rcases getOpenFileEntry fhandle with _ | h
  · exact ⟨_, rfl, rfl, by simp⟩
  rcases hs.inumbers h with ⟨i, hi, hnum⟩
  simp only
  by_cases hneg : castInt toWrite < 0
  · rw [if_pos hneg, if_pos hneg]
    exact ⟨_, rfl, rfl, by simp⟩
  rw [if_neg hneg, if_neg hneg]
  simp only [hnum, inodeGet_natCast hi]
  -- the seek to the end of the file stays within the bound on sizes
  have hoff : ((seekForAppend h i s).openFileTable h).ofOffset ≤ 272384 * 267 := by
    rw [(moved_seekForAppend h i s).ofOffset]
    split
    · exact hs.sizes i
    · exact hs.offsets h
  generalize seekForAppend h i s = u at hoff ⊢
  have hends := writeBlocksRecorded_ends i buffer toWrite hoff hfuel
  have hcast : (u.openFileTable h).ofOffset < 2 ^ 31 := by omega
  rw [blockIndex_of_lt hcast, if_neg (by omega), Int.toNat_natCast]
  refine ⟨_, rfl, hends.result, ?_⟩
  intro c hc
  rcases List.mem_cons.1 hc with rfl | hc
  · exact hcast
  · exact hends.inRange c hc

theorem Shape.readRecorded_ends (hs : Shape s) (fhandle : ℤ) (len : ℕ) (hfuel : indexEntries < fuel) :
    ∃ x, Tfs.tfsRead fhandle len s = some x ∧ Ends (readRecorded fuel fhandle len s) x := by
  unfold Tfs.tfsRead readRecorded
  rcases getOpenFileEntry fhandle with _ | h
  · exact ⟨_, rfl, rfl, by simp⟩
  rcases hs.inumbers h with ⟨i, hi, hnum⟩
  simp only [hnum, inodeGet_natCast hi]
  -- the clamp leaves the offset within the file
  have hclamped : ((clampOffset h i s).openFileTable h).ofOffset ≤ ((clampOffset h i s).inodeTable i).iSize ∧
      ((clampOffset h i s).openFileTable h).ofOffset ≤ 272384 * 267 := by
    have hoffset := hs.offsets h
    rw [clampOffset_eq]
    simp only [State.setEntry_openFileTable, State.setEntry_inodeTable, Function.update_self]
    omega
  generalize clampOffset h i s = u at hclamped ⊢
  have hends := readBlocksRecorded_ends i
    (readCount (u.inodeTable i).iSize (u.openFileTable h).ofOffset len) hclamped.2 hfuel
  have hcast : (u.openFileTable h).ofOffset < 2 ^ 31 := by
    have hbound := hclamped.2
    omega
  rw [blockIndex_of_lt hcast, if_neg (by omega), Int.toNat_natCast]
  refine ⟨_, rfl, hends.result, ?_⟩
  simp only [List.mem_cons]
  rintro c (rfl | rfl | hc)
  · exact hclamped.1
  · exact hcast
  · exact hends.inRange c hc

/-- In every state that any calls lead to, offsets and sizes are far below `2 ^ 31`, and the loops of every
write and read end, with all their arithmetic in range. -/
theorem arithmetic_inRange {hist : List (State × Call)} (he : anyCalls.Execution hist s) :
    (∀ h, (s.openFileTable h).ofOffset < 2 ^ 31) ∧ (∀ i, (s.inodeTable i).iSize < 2 ^ 31) ∧
      ∀ fuel, indexEntries < fuel →
        (∀ fhandle buffer toWrite, ∃ x, tfsWrite fhandle buffer toWrite s = some x ∧
          Ends (writeRecorded fuel fhandle buffer toWrite s) x) ∧
        ∀ fhandle len, ∃ x, tfsRead fhandle len s = some x ∧ Ends (readRecorded fuel fhandle len s) x := by
  have hs := shape_of_execution he
  refine ⟨?_, ?_, ?_⟩
  · intro h
    have hbound := hs.offsets h
    omega
  · intro i
    have hbound := hs.sizes i
    omega
  · intro fuel hfuel
    exact ⟨fun fhandle buffer toWrite => hs.writeRecorded_ends fhandle buffer toWrite hfuel,
      fun fhandle len => hs.readRecorded_ends fhandle len hfuel⟩

/-- After a write of the largest size. -/
theorem arithmetic_inRange_write : ∃ hist s, anyCalls.Execution hist s ∧
    hist.map Prod.snd = [.write 0 (fun _ => 0x41) 272384, .open (some slashA) tfsOCreat] ∧
    ∀ h, (s.openFileTable h).ofOffset < 2 ^ 31 := by
  obtain ⟨s₀, he₀⟩ : ∃ s₀, anyCalls.Execution [] s₀ := ⟨_, System.Execution.start rfl⟩
  rcases (shape_of_execution he₀).exec (.open (some slashA) tfsOCreat) with ⟨_, s₁, hopen, _⟩
  have hfirst : anyCalls.step s₀ (.open (some slashA) tfsOCreat) s₁ := ⟨trivial, _, hopen⟩
  have he₁ := he₀.next hfirst
  rcases (shape_of_execution he₁).exec (.write 0 (fun _ => 0x41) 272384) with ⟨_, s₂, hwrite, _⟩
  have hsecond : anyCalls.step s₁ (.write 0 (fun _ => 0x41) 272384) s₂ := ⟨trivial, _, hwrite⟩
  have he₂ := he₁.next hsecond
  exact ⟨_, s₂, he₂, by simp, (arithmetic_inRange he₂).1⟩

end Calls

end Tfs
end TecnicoFs
