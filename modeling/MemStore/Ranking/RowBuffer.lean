import Mathlib.Data.List.TakeWhile
import MemStore.Ranking.Pages

/-!
# The rows of `mem_rank_get_range`

A 2D array of a plugin begins with a table that says, in its cell `i`, how far
row `i` is from that cell.  `amxx_mem_rank_get_range` adds the offset to the
address of the array instead, so that it writes row `i` a distance of `i` cells
before its beginning.

* `RowBuffer` is the geometry of such an array, and `Indirect` says that its
  table is in order; `Filled` is what the plugin may expect after the call.
* `writeRows_frame` bounds what the loop writes: never the table, and never a
  row behind the ones it has come to.
* `not_filled`: the last of several rows is wrong in some memory.
* `rows_filled_iff`: so the call is right if it returns one entry at most.
-/

namespace MemStore

/-! ## Cells -/

theorem cellAddr_zero (base : Cell) : cellAddr base 0 = base := Int32.add_zero base

theorem cellAddr_add (base : Cell) (i j : ℕ) :
    cellAddr (cellAddr base i) j = cellAddr base (i + j) := by
  rw [cellAddr, cellAddr, cellAddr, Int32.add_assoc, ← Int32.ofNat_add, Nat.mul_add]

/-- Up to 2^30 cells have different addresses. -/
theorem cellAddr_inj {base : Cell} {i j : ℕ} (hi : i < 2 ^ 30) (hj : j < 2 ^ 30) :
    cellAddr base i = cellAddr base j ↔ i = j := by
  constructor
  · intro h
    have hvalue := congrArg Int32.toInt ((Int32.add_right_inj base).mp h)
    rw [Int32.toInt_ofNat', Int32.toInt_ofNat', show Int32.size = 4294967296 from rfl,
      Int.bmod_def, Int.bmod_def] at hvalue
    omega
  · rintro rfl
    rfl

namespace AmxMemory

variable {mem : AmxMemory}

theorem read_eq (mem : AmxMemory) (base : Cell) (i : ℕ) : mem.read base i = mem (cellAddr base i) :=
  rfl

theorem set_same (addr value : Cell) : mem.set addr value addr = value := if_pos rfl

theorem set_of_ne {addr a : Cell} (h : a ≠ addr) (value : Cell) : mem.set addr value a = mem a :=
  if_neg h

/-- Cells outside the range keep their values. -/
theorem setCells_of_ne {base a : Cell} {cells : List Cell}
    (h : ∀ j < cells.length, a ≠ cellAddr base j) : mem.setCells base cells a = mem a := by
  induction cells generalizing mem base with
  | nil => rfl
  | cons value rest ih =>
      have hrest : ∀ j < rest.length, a ≠ cellAddr (base + 4) j := by
        intro j hj
        have hne := h (j + 1) (Nat.succ_lt_succ hj)
        rwa [Nat.add_comm, ← cellAddr_add] at hne
      have hbase := h 0 (Nat.succ_pos _)
      rw [cellAddr_zero] at hbase
      rw [setCells, ih hrest, set_of_ne hbase]

/-- Cells in the range have the values stored. -/
theorem read_setCells {base : Cell} {cells : List Cell} (hfits : cells.length ≤ 2 ^ 30) {j : ℕ}
    (hj : j < cells.length) : (mem.setCells base cells).read base j = cells[j] := by
  induction cells generalizing mem base j with
  | nil => exact absurd hj (Nat.not_lt_zero j)
  | cons value rest ih =>
      rw [List.length_cons] at hfits hj
      cases j with
      | zero =>
          -- the cells behind are not the first one
          have hne : ∀ k < rest.length, cellAddr base 0 ≠ cellAddr (base + 4) k := by
            intro k hk heq
            have hnext : cellAddr (base + 4) k = cellAddr base (1 + k) := cellAddr_add base 1 k
            rw [hnext, cellAddr_inj (by omega) (by omega)] at heq
            omega
          rw [setCells, read_eq, setCells_of_ne hne, cellAddr_zero, set_same]
          rfl
      | succ j =>
          have hnext : cellAddr base (j + 1) = cellAddr (base + 4) j := by
            rw [Nat.add_comm]
            exact (cellAddr_add base 1 j).symm
          rw [setCells, read_eq, hnext]
          exact ih (by omega) (by omega)

/-- `array[i][j]` for a 2D array. -/
def read2 (mem : AmxMemory) (array : Cell) (i j : ℕ) : Cell :=
  mem.read (cellAddr array i + mem.read array i) j

end AmxMemory

/-! ## The arrays of a plugin -/

/-- Where the arrays of a call are: a table of `rows` cells at the address of the
keys, the rows one after another from cell `start` on, and the scores apart. -/
structure RowBuffer (p : RangeParams) where
  rows : ℕ
  start : ℕ
  keys_ne_zero : p.keys ≠ 0
  maxItems_le : p.maxItems.toInt.toNat ≤ rows
  rows_le : rows ≤ start
  fits : start + rows * (p.maxKeyLen.toInt.toNat + 1) ≤ 2 ^ 30
  scores_apart : p.scores ≠ 0 → ∀ i < p.maxItems.toInt.toNat,
    ∀ k < start + rows * (p.maxKeyLen.toInt.toNat + 1), cellAddr p.scores i ≠ cellAddr p.keys k

namespace RowBuffer

variable {p : RangeParams} (b : RowBuffer p)

/-- The number of cells of a row. -/
def width (_ : RowBuffer p) : ℕ := p.maxKeyLen.toInt.toNat + 1

/-- The cell at which a row begins, counted from the beginning of the array. -/
def row (i : ℕ) : ℕ := b.start + i * b.width

/-- The table leads to the rows. -/
def Indirect (mem : AmxMemory) : Prop :=
  ∀ i < b.rows, cellAddr p.keys i + mem.read p.keys i = cellAddr p.keys (b.row i)

theorem width_pos : 0 < b.width := Nat.succ_pos _

theorem row_succ (i : ℕ) : b.row (i + 1) = b.row i + b.width := by
  rw [row, row, Nat.succ_mul, Nat.add_assoc]

theorem row_mono {i j : ℕ} (h : i ≤ j) : b.row i ≤ b.row j :=
  Nat.add_le_add_left (Nat.mul_le_mul_right _ h) _

/-- A row ends before the next one. -/
theorem row_add_width_le {i : ℕ} (hi : i < b.rows) : b.row i + b.width ≤ b.row b.rows := by
  rw [← row_succ]
  exact b.row_mono (Nat.succ_le_of_lt hi)

theorem start_add_le_row (i : ℕ) : b.start + i ≤ b.row i :=
  Nat.add_le_add_left (Nat.le_mul_of_pos_right i b.width_pos) _

theorem row_rows_le : b.row b.rows ≤ 2 ^ 30 := b.fits

/-- The table decides where the rows are. -/
theorem read2_eq {mem : AmxMemory} (h : b.Indirect mem) {i : ℕ} (hi : i < b.rows) (j : ℕ) :
    mem.read2 p.keys i j = mem (cellAddr p.keys (b.row i + j)) := by
  rw [AmxMemory.read2, h i hi, AmxMemory.read_eq, cellAddr_add]

/-- The address the loop computes lies too low by the number of the row. -/
theorem rowAddr_eq {mem : AmxMemory} (h : b.Indirect mem) {i : ℕ} (hi : i < b.rows) :
    p.keys + mem.read p.keys i = cellAddr p.keys (b.row i - i) := by
  have hle := b.start_add_le_row i
  have hrow : b.row i = b.row i - i + i := by omega
  have haddr := h i hi
  rw [hrow, ← cellAddr_add, cellAddr, cellAddr, Int32.add_assoc, Int32.add_comm (Int32.ofNat _),
    ← Int32.add_assoc] at haddr
  exact (Int32.add_left_inj _).mp haddr

theorem indirect_congr {mem mem' : AmxMemory} (h : b.Indirect mem)
    (hsame : ∀ k < b.start, mem' (cellAddr p.keys k) = mem (cellAddr p.keys k)) :
    b.Indirect mem' := by
  intro i hi
  have hread : mem'.read p.keys i = mem.read p.keys i := hsame i (hi.trans_le b.rows_le)
  rw [hread, h i hi]

/-- There are memories with the table in order and any value in a cell behind it. -/
theorem exists_indirect {k : ℕ} (hk : b.start ≤ k) (hfits : k < 2 ^ 30) (value : Cell) :
    ∃ mem : AmxMemory, b.Indirect mem ∧ mem (cellAddr p.keys k) = value := by
  classical
  have htable : ∀ i < b.rows, ∀ j < b.rows, cellAddr p.keys i = cellAddr p.keys j → i = j := by
    have hrows := b.row_rows_le
    have hle := b.start_add_le_row b.rows
    intro i hi j hj heq
    exact (cellAddr_inj (by omega) (by omega)).mp heq
  refine ⟨fun a => if h : ∃ i < b.rows, a = cellAddr p.keys i then
    cellAddr p.keys (b.row h.choose) - a else value, ?_, ?_⟩
  · intro i hi
    have hex : ∃ j < b.rows, cellAddr p.keys i = cellAddr p.keys j := ⟨i, hi, rfl⟩
    have hchoose : hex.choose = i :=
      (htable i hi hex.choose hex.choose_spec.1 hex.choose_spec.2).symm
    rw [AmxMemory.read_eq, dif_pos hex, hchoose, Int32.add_comm, Int32.sub_add_cancel]
  · refine dif_neg ?_
    rintro ⟨i, hi, heq⟩
    have hle := b.rows_le
    rw [cellAddr_inj hfits (by omega)] at heq
    omega

end RowBuffer

/-! ## The loop -/

theorem zero_notMem_cStr (key : StdString) : 0 ∉ cStr key := by
  intro h
  have hne := List.mem_takeWhile_imp h
  simp at hne

/-- The cells of a key in a row. -/
def rowCells (lib : AmxLibrary) (maxKeyLen : Cell) (key : StdString) : List Cell :=
  ((cStr key).take maxKeyLen.toInt.toNat).map lib.charCell ++ [0]

/-- The terminator is the last cell of a row, and the only one that is 0. -/
theorem rowCells_getElem?_eq_zero_iff (lib : AmxLibrary) (maxKeyLen : Cell) (key : StdString)
    (j : ℕ) : (rowCells lib maxKeyLen key)[j]? = some 0 ↔
      j + 1 = (rowCells lib maxKeyLen key).length := by
  have hchar : ∀ c ∈ (cStr key).take maxKeyLen.toInt.toNat, lib.charCell c ≠ 0 := by
    intro c hc
    apply lib.charCell_ne_zero
    rintro rfl
    exact zero_notMem_cStr key (List.mem_of_mem_take hc)
  rw [rowCells]
  generalize (cStr key).take maxKeyLen.toInt.toNat = text at hchar ⊢
  rw [List.length_append, List.length_singleton, Nat.add_right_cancel_iff]
  rcases Nat.lt_trichotomy j (text.map lib.charCell).length with hlt | heq | hgt
  · rw [List.getElem?_append_left hlt]
    refine iff_of_false ?_ hlt.ne
    intro hzero
    obtain ⟨c, hc, hzero⟩ := List.mem_map.mp (List.mem_of_getElem? hzero)
    exact hchar c hc hzero
  · rw [heq, List.getElem?_append_right le_rfl, Nat.sub_self]
    exact iff_of_true rfl rfl
  · have hout : (text.map lib.charCell ++ [0]).length ≤ j := by
      rw [List.length_append, List.length_singleton]
      omega
    rw [List.getElem?_eq_none hout]
    exact iff_of_false (Option.some_ne_none _).symm hgt.ne'

/-- One round of the loop. -/
def writeRow (lib : AmxLibrary) (p : RangeParams) (i : ℕ) (key : StdString) (score : Cell)
    (mem : AmxMemory) : AmxMemory :=
  let mem :=
    if p.keys ≠ 0 then
      lib.setAmxString mem (p.keys + mem.read p.keys i) (cStr key) p.maxKeyLen
    else mem
  if p.scores ≠ 0 then mem.set (cellAddr p.scores i) score else mem

section Loop

variable {lib : AmxLibrary} {p : RangeParams} (b : RowBuffer p) (hlen : 0 < p.maxKeyLen)

theorem writeRows_append (i : ℕ) (results : List (StdString × Cell)) (key : StdString)
    (score : Cell) (mem : AmxMemory) :
    writeRows lib p.keys p.scores p.maxKeyLen i (results ++ [(key, score)]) mem =
      writeRow lib p (i + results.length) key score
        (writeRows lib p.keys p.scores p.maxKeyLen i results mem) := by
  induction results generalizing i mem with
  | nil => rfl
  | cons pair rest ih =>
      rw [List.cons_append, List.length_cons, writeRows, writeRows, ih, Nat.add_assoc,
        Nat.add_comm 1]

variable (lib) in
theorem length_rowCells_le (key : StdString) :
    (rowCells lib p.maxKeyLen key).length ≤ b.width := by
  rw [rowCells, List.length_append, List.length_map, List.length_take, List.length_singleton,
    RowBuffer.width]
  omega

include hlen in
theorem writeRow_eq {mem : AmxMemory} (hmem : b.Indirect mem) {i : ℕ}
    (hi : i < p.maxItems.toInt.toNat) (key : StdString) (score : Cell) :
    writeRow lib p i key score mem =
      let mem := mem.setCells (cellAddr p.keys (b.row i - i)) (rowCells lib p.maxKeyLen key)
      if p.scores ≠ 0 then mem.set (cellAddr p.scores i) score else mem := by
  rw [writeRow, if_pos b.keys_ne_zero, lib.setAmxString_eq _ _ _ _ hlen (zero_notMem_cStr key),
    b.rowAddr_eq hmem (hi.trans_le b.maxItems_le)]
  rfl

include hlen in
/-- What a round does to a cell of the array. -/
theorem writeRow_cell {mem : AmxMemory} (hmem : b.Indirect mem) {i : ℕ}
    (hi : i < p.maxItems.toInt.toNat) (key : StdString) (score : Cell) {k : ℕ}
    (hk : k < b.row b.rows) :
    writeRow lib p i key score mem (cellAddr p.keys k) =
      mem.setCells (cellAddr p.keys (b.row i - i)) (rowCells lib p.maxKeyLen key)
        (cellAddr p.keys k) := by
  rw [writeRow_eq b hlen hmem hi]
  dsimp only
  split
  · next hscores => exact AmxMemory.set_of_ne (b.scores_apart hscores i hi k hk).symm _
  · rfl

include hlen in
/-- A round stays within the cells between two rows. -/
theorem writeRow_frame {mem : AmxMemory} (hmem : b.Indirect mem) {i : ℕ}
    (hi : i < p.maxItems.toInt.toNat) (key : StdString) (score : Cell) {k : ℕ}
    (hk : k < b.row b.rows)
    (hout : k < b.row i - i ∨ b.row i - i + (rowCells lib p.maxKeyLen key).length ≤ k) :
    writeRow lib p i key score mem (cellAddr p.keys k) = mem (cellAddr p.keys k) := by
  rw [writeRow_cell b hlen hmem hi key score hk]
  refine AmxMemory.setCells_of_ne fun j hj heq => ?_
  have hrow := b.row_add_width_le (hi.trans_le b.maxItems_le)
  have hcells := length_rowCells_le lib b key
  have hfits := b.row_rows_le
  rw [cellAddr_add, cellAddr_inj (by omega) (by omega)] at heq
  omega

include hlen in
/-- What a round writes. -/
theorem writeRow_read {mem : AmxMemory} (hmem : b.Indirect mem) {i : ℕ}
    (hi : i < p.maxItems.toInt.toNat) (key : StdString) (score : Cell) {j : ℕ}
    (hj : j < (rowCells lib p.maxKeyLen key).length) :
    writeRow lib p i key score mem (cellAddr p.keys (b.row i - i + j)) =
      (rowCells lib p.maxKeyLen key)[j] := by
  have hrow := b.row_add_width_le (hi.trans_le b.maxItems_le)
  have hcells := length_rowCells_le lib b key
  have hfits := b.row_rows_le
  rw [writeRow_cell b hlen hmem hi key score (by omega), ← cellAddr_add]
  exact AmxMemory.read_setCells (by omega) hj

include hlen in
/-- The loop leaves the table alone, and the rows behind those it has come to. -/
theorem writeRows_frame {mem : AmxMemory} (hmem : b.Indirect mem) {i : ℕ}
    {results : List (StdString × Cell)} (hi : i + results.length ≤ p.maxItems.toInt.toNat)
    {k : ℕ} (hk : k < b.row b.rows) (hout : k < b.start ∨ b.row (i + results.length) ≤ k) :
    writeRows lib p.keys p.scores p.maxKeyLen i results mem (cellAddr p.keys k) =
      mem (cellAddr p.keys k) := by
  induction results generalizing i mem k with
  | nil => rfl
  | cons pair rest ih =>
      obtain ⟨key, score⟩ := pair
      rw [List.length_cons] at hi hout
      have hround : ∀ k < b.row b.rows, k < b.start ∨ b.row (i + 1) ≤ k →
          writeRow lib p i key score mem (cellAddr p.keys k) = mem (cellAddr p.keys k) := by
        intro k hk hout
        have hstart := b.start_add_le_row i
        have hcells := length_rowCells_le lib b key
        rw [RowBuffer.row_succ] at hout
        exact writeRow_frame b hlen hmem (by omega) key score hk (by omega)
      have hnext : b.Indirect (writeRow lib p i key score mem) := by
        refine b.indirect_congr hmem fun k hk => hround k ?_ (.inl hk)
        exact hk.trans_le ((Nat.le_add_right _ _).trans (b.start_add_le_row b.rows))
      have hmono := b.row_mono (show i + 1 ≤ i + (rest.length + 1) by omega)
      have hlast : i + (rest.length + 1) = i + 1 + rest.length := by omega
      rw [hlast] at hi hout hmono
      have hrest : writeRows lib p.keys p.scores p.maxKeyLen (i + 1) rest
          (writeRow lib p i key score mem) (cellAddr p.keys k) =
            writeRow lib p i key score mem (cellAddr p.keys k) := ih hnext hi hk hout
      exact hrest.trans (hround k hk (by omega))

include hlen in
/-- So the table stays in order. -/
theorem indirect_writeRows {mem : AmxMemory} (hmem : b.Indirect mem) {i : ℕ}
    {results : List (StdString × Cell)} (hi : i + results.length ≤ p.maxItems.toInt.toNat) :
    b.Indirect (writeRows lib p.keys p.scores p.maxKeyLen i results mem) := by
  refine b.indirect_congr hmem fun k hk => writeRows_frame b hlen hmem hi ?_ (.inl hk)
  exact hk.trans_le ((Nat.le_add_right _ _).trans (b.start_add_le_row b.rows))

end Loop

/-! ## What the plugin may expect -/

/-- The rows hold the keys, cut down to the length asked for, the scores are next
to them, and nothing else has changed. -/
structure Filled (lib : AmxLibrary) {p : RangeParams} (b : RowBuffer p)
    (mem mem' : AmxMemory) (results : List (StdString × Cell)) : Prop where
  keys : ∀ i key score, results[i]? = some (key, score) →
    ∀ j c, (rowCells lib p.maxKeyLen key)[j]? = some c → mem'.read2 p.keys i j = c
  scores : p.scores ≠ 0 → ∀ i key score, results[i]? = some (key, score) →
    mem'.read p.scores i = score
  rest : ∀ a, (∀ i < results.length, ∀ j < b.width, a ≠ cellAddr p.keys (b.row i + j)) →
    (p.scores ≠ 0 → ∀ i < results.length, a ≠ cellAddr p.scores i) → mem' a = mem a

section Expectations

variable {lib : AmxLibrary} {p : RangeParams} (b : RowBuffer p) (hlen : 0 < p.maxKeyLen)

include hlen in
/-- One row is right: row 0 is where the table says, counted from the array as well. -/
theorem filled_singleton {mem : AmxMemory} (hmem : b.Indirect mem)
    (hitems : 0 < p.maxItems.toInt.toNat) (key : StdString) (score : Cell) :
    Filled lib b mem (writeRows lib p.keys p.scores p.maxKeyLen 0 [(key, score)] mem)
      [(key, score)] := by
  have hrows : 0 < b.rows := hitems.trans_le b.maxItems_le
  have hrow := b.row_add_width_le hrows
  have hcells := length_rowCells_le lib b key
  have hround : writeRows lib p.keys p.scores p.maxKeyLen 0 [(key, score)] mem =
      writeRow lib p 0 key score mem := rfl
  have hindirect : b.Indirect (writeRow lib p 0 key score mem) := by
    refine b.indirect_congr hmem fun k hk => ?_
    have hstart := b.start_add_le_row 0
    exact writeRow_frame b hlen hmem hitems key score (by omega) (.inl (by omega))
  rw [hround]
  refine ⟨?_, ?_, ?_⟩
  · rintro (_ | i) key' score' hget j c hcell
    · cases hget
      obtain ⟨hj, rfl⟩ := List.getElem?_eq_some_iff.mp hcell
      rw [b.read2_eq hindirect hrows, ← writeRow_read b hlen hmem hitems key score hj, Nat.sub_zero]
    · cases hget
  · rintro hscores (_ | i) key' score' hget
    · cases hget
      rw [AmxMemory.read_eq, writeRow, if_pos hscores, AmxMemory.set_same]
    · cases hget
  · intro a ha hscore
    have hcell : mem.setCells (cellAddr p.keys (b.row 0 - 0)) (rowCells lib p.maxKeyLen key) a =
        mem a := by
      refine AmxMemory.setCells_of_ne fun j hj => ?_
      rw [Nat.sub_zero, cellAddr_add]
      exact ha 0 (Nat.succ_pos 0) j (hj.trans_le hcells)
    rw [writeRow_eq b hlen hmem hitems]
    dsimp only
    split
    · next hscores => rw [AmxMemory.set_of_ne (hscore hscores 0 (Nat.succ_pos 0)), hcell]
    · exact hcell

/-- Nothing is right to write when there are no rows. -/
theorem filled_nil (mem : AmxMemory) : Filled lib b mem mem [] := by
  refine ⟨?_, ?_, fun _ _ _ => rfl⟩
  · intro i key score hget
    cases hget
  · intro _ i key score hget
    cases hget

section LastRow

variable {init : List (StdString × Cell)} (hitem : init.length < p.maxItems.toInt.toNat)
  (key : StdString) (score : Cell) {mem : AmxMemory} (hmem : b.Indirect mem)

include hlen hitem hmem

/-- The last round has to write the last row. -/
theorem Filled.writeRow_last
    (hfilled : Filled lib b mem
      (writeRows lib p.keys p.scores p.maxKeyLen 0 (init ++ [(key, score)]) mem)
        (init ++ [(key, score)])) {j : ℕ} {c : Cell}
    (hcell : (rowCells lib p.maxKeyLen key)[j]? = some c) :
    writeRow lib p init.length key score (writeRows lib p.keys p.scores p.maxKeyLen 0 init mem)
      (cellAddr p.keys (b.row init.length + j)) = c := by
  have hget : (init ++ [(key, score)])[init.length]? = some (key, score) := by
    rw [List.getElem?_append_right le_rfl, Nat.sub_self]
    rfl
  have hrows : init.length < b.rows := hitem.trans_le b.maxItems_le
  have hindirect : b.Indirect
      (writeRows lib p.keys p.scores p.maxKeyLen 0 (init ++ [(key, score)]) mem) :=
    indirect_writeRows b hlen hmem (by rw [List.length_append, List.length_singleton]; omega)
  have hread := hfilled.keys init.length key score hget j c hcell
  rw [b.read2_eq hindirect hrows, writeRows_append, Nat.zero_add] at hread
  exact hread

/-- A text that reaches the row ends too early: its terminator stands where a
character is expected. -/
theorem not_filled_of_lt (hpos : 0 < init.length)
    (hshort : init.length < (rowCells lib p.maxKeyLen key).length) :
    ¬ Filled lib b mem (writeRows lib p.keys p.scores p.maxKeyLen 0 (init ++ [(key, score)]) mem)
      (init ++ [(key, score)]) := by
  intro hfilled
  have hstart := b.start_add_le_row init.length
  have hindirect : b.Indirect (writeRows lib p.keys p.scores p.maxKeyLen 0 init mem) :=
    indirect_writeRows b hlen hmem (by omega)
  obtain ⟨c, hcell⟩ : ∃ c, (rowCells lib p.maxKeyLen key)[
      (rowCells lib p.maxKeyLen key).length - 1 - init.length]? = some c :=
    ⟨_, List.getElem?_eq_getElem (by omega)⟩
  have hexpected := hfilled.writeRow_last b hlen hitem key score hmem hcell
  have hwritten := writeRow_read b hlen hindirect hitem key score
    (show (rowCells lib p.maxKeyLen key).length - 1 < (rowCells lib p.maxKeyLen key).length by
      omega)
  have hzero : (rowCells lib p.maxKeyLen key)[
      (rowCells lib p.maxKeyLen key).length - 1]? = some 0 :=
    (rowCells_getElem?_eq_zero_iff ..).mpr (by omega)
  obtain ⟨_, hzero⟩ := List.getElem?_eq_some_iff.mp hzero
  have hplace : b.row init.length - init.length + ((rowCells lib p.maxKeyLen key).length - 1) =
      b.row init.length + ((rowCells lib p.maxKeyLen key).length - 1 - init.length) := by omega
  rw [hplace, hzero] at hwritten
  rw [← hexpected, hwritten, rowCells_getElem?_eq_zero_iff] at hcell
  omega

/-- A text that does not reach the row leaves there what there was. -/
theorem not_filled_of_ge (hlong : (rowCells lib p.maxKeyLen key).length ≤ init.length) {c : Cell}
    (hcell : (rowCells lib p.maxKeyLen key)[0]? = some c)
    (hvalue : mem (cellAddr p.keys (b.row init.length)) ≠ c) :
    ¬ Filled lib b mem (writeRows lib p.keys p.scores p.maxKeyLen 0 (init ++ [(key, score)]) mem)
      (init ++ [(key, score)]) := by
  intro hfilled
  have hlast := b.row_add_width_le (hitem.trans_le b.maxItems_le)
  have hstart := b.start_add_le_row init.length
  have hwidth : 0 < b.width := Nat.succ_pos _
  have hindirect : b.Indirect (writeRows lib p.keys p.scores p.maxKeyLen 0 init mem) :=
    indirect_writeRows b hlen hmem (by omega)
  have hbefore : writeRows lib p.keys p.scores p.maxKeyLen 0 init mem
      (cellAddr p.keys (b.row init.length)) = mem (cellAddr p.keys (b.row init.length)) :=
    writeRows_frame b hlen hmem (by omega) (by omega) (.inr (by rw [Nat.zero_add]))
  have hexpected := hfilled.writeRow_last b hlen hitem key score hmem hcell
  rw [Nat.add_zero, writeRow_frame b hlen hindirect hitem key score (by omega) (.inr (by omega)),
    hbefore] at hexpected
  exact hvalue hexpected

end LastRow

include hlen in
/-- The last of several rows is wrong: it is shifted by more cells than its text
has, and stays as it was, or the end of its text comes too early. -/
theorem not_filled {results : List (StdString × Cell)} (htwo : 2 ≤ results.length)
    (hitems : results.length ≤ p.maxItems.toInt.toNat) :
    ∃ mem, b.Indirect mem ∧
      ¬ Filled lib b mem (writeRows lib p.keys p.scores p.maxKeyLen 0 results mem) results := by
  obtain ⟨init, ⟨key, score⟩, rfl⟩ : ∃ init last, results = init ++ [last] :=
    ⟨_, _, (List.dropLast_append_getLast (by rintro rfl; cases htwo)).symm⟩
  rw [List.length_append, List.length_singleton] at htwo hitems
  have hlast := b.row_add_width_le (Nat.lt_of_lt_of_le hitems b.maxItems_le)
  have hstart := b.start_add_le_row init.length
  have hwidth : 0 < b.width := Nat.succ_pos _
  have hfits := b.row_rows_le
  by_cases hshort : init.length < (rowCells lib p.maxKeyLen key).length
  · obtain ⟨mem, hmem, _⟩ := b.exists_indirect le_rfl (by omega) 0
    exact ⟨mem, hmem, not_filled_of_lt b hlen hitems key score hmem (by omega) hshort⟩
  · -- the row may have held anything
    have hpos : 0 < (rowCells lib p.maxKeyLen key).length := by
      rw [rowCells, List.length_append]
      exact Nat.succ_pos _
    obtain ⟨c, hcell⟩ : ∃ c, (rowCells lib p.maxKeyLen key)[0]? = some c :=
      ⟨_, List.getElem?_eq_getElem hpos⟩
    obtain ⟨mem, hmem, hvalue⟩ := b.exists_indirect
      (show b.start ≤ b.row init.length by omega) (by omega) (c + 1)
    refine ⟨mem, hmem, not_filled_of_ge b hlen hitems key score hmem (by omega) hcell ?_⟩
    intro hsame
    have hone : (1 : Int32) = 0 := Int32.add_eq_left.mp (hvalue.symm.trans hsame)
    exact absurd hone (by decide)

end Expectations

open MemStoreManager

variable {alg : StdAlgorithm RankPair}

/-- **`mem_rank_get_range` fills its arrays for one entry at most.**  On every
leaderboard and for all parameters the native accepts, the call leaves every
memory in which the table of the array is in order as the plugin may expect, if
and only if it asks for one entry, has room for one, or starts at the last live
entry or behind it. -/
theorem rows_filled_iff {lib : AmxLibrary} {s : MemStoreManager} {now : TimePoint}
    {p : RangeParams} {order : RankOrder} (b : RowBuffer p) (hns : p.ns ≠ [])
    (hstart : 1 ≤ p.startPos.toInt) (hcount : 1 ≤ p.count.toInt) (hitems : 1 ≤ p.maxItems.toInt)
    (hlen : 1 ≤ p.maxKeyLen.toInt) (horder : p.order.elim (some .desc) rankOrderOf = some order) :
    (∀ mem, b.Indirect mem → ∃ (results : List (StdString × Cell)) (mem' : AmxMemory),
      (s.rankGetRange alg p.ns p.startPos p.fetchCount order now).2 = some results ∧
      (amxxMemRankGetRange alg lib s mem p now).2 =
        some (mem', Int32.ofNat results.length) ∧ Filled lib b mem mem' results) ↔
      p.count.toInt = 1 ∨ p.maxItems.toInt = 1 ∨
        ((s.rankGetCount p.ns now).2 : ℤ) ≤ p.startPos.toInt := by
  have hfetch := toNat_fetchCount hcount hitems
  have hwrap := toNat_startIndex_add hstart hcount hitems
  obtain ⟨entries, hentries, hlength⟩ : ∃ entries,
      (s.liveView now).range p.ns alg p.startPos p.fetchCount order = some entries ∧
        entries.length = min p.fetchCount.toNat
          (((s.liveView now).ranks p.ns).size + 1 - p.startPos.toInt.toNat) :=
    length_range alg hstart (by omega) (by omega)
  rw [← rankGetRange_view] at hentries
  have hwritten : ∀ mem, (amxxMemRankGetRange alg lib s mem p now).2 =
      some (writeRows lib p.keys p.scores p.maxKeyLen 0 entries mem,
        Int32.ofNat entries.length) := by
    intro mem
    rw [amxxMemRankGetRange_eq alg lib s mem now hns hstart hcount hitems hlen horder, hentries]
    rfl
  have hpos : 0 < p.maxKeyLen := by
    rw [Int32.lt_iff_toInt_lt, Int32.toInt_zero]
    omega
  have hone : entries.length ≤ 1 ↔ p.count.toInt = 1 ∨ p.maxItems.toInt = 1 ∨
      ((s.rankGetCount p.ns now).2 : ℤ) ≤ p.startPos.toInt := by
    rw [rankGetCount_view]
    omega
  rw [← hone]
  constructor
  · intro hfilled
    by_contra htwo
    obtain ⟨mem, hmem, hnot⟩ : ∃ mem, b.Indirect mem ∧ ¬ Filled lib b mem
        (writeRows lib p.keys p.scores p.maxKeyLen 0 entries mem) entries :=
      not_filled b hpos (by omega) (by omega)
    obtain ⟨results, mem', hresults, hcall, hright⟩ := hfilled mem hmem
    rw [hentries] at hresults
    cases hresults
    rw [hwritten] at hcall
    cases hcall
    exact hnot hright
  · intro hle mem hmem
    refine ⟨entries, _, hentries, hwritten mem, ?_⟩
    match entries, hle with
    | [], _ => exact filled_nil b mem
    | [(key, score)], _ => exact filled_singleton b hpos hmem (by omega) key score

/-! ## A table of two rows -/

/-- The best two of a leaderboard, with keys of up to three characters. -/
private def bestTwo (count : Cell) : RangeParams where
  ns := [1]
  startPos := 1
  count := count
  keys := 100
  scores := 0
  maxItems := 2
  maxKeyLen := 3

/-- `new keys[2][4]`. -/
private def twoRows (count : Cell) : RowBuffer (bestTwo count) where
  rows := 2
  start := 2
  keys_ne_zero := show (100 : Cell) ≠ 0 by decide
  maxItems_le := show (2 : Cell).toInt.toNat ≤ 2 by decide
  rows_le := le_rfl
  fits := show 2 + 2 * ((3 : Cell).toInt.toNat + 1) ≤ 2 ^ 30 by decide
  scores_apart := fun h => absurd rfl h

/-- The array with nothing in it: row 0 begins 8 bytes behind the first cell, and
row 1 begins 20 bytes behind the second one. -/
private def emptyRows : AmxMemory := fun a => if a = 100 then 8 else if a = 104 then 20 else 0

private theorem indirect_emptyRows (count : Cell) : (twoRows count).Indirect emptyRows
  | 0, _ => show cellAddr 100 0 + emptyRows.read 100 0 = cellAddr 100 (2 + 0 * 4) by decide
  | 1, _ => show cellAddr 100 1 + emptyRows.read 100 1 = cellAddr 100 (2 + 1 * 4) by decide
  | i + 2, h => absurd h (Nat.not_lt.mpr (Nat.le_add_left 2 i))

/-- The entries `bc` and `de`. -/
private def twoEntries : MemStoreManager :=
  (({} : MemStoreManager).rankStore (fun _ => 0) [1] [98, 99] 9 .persistent 0 0).rankStore
    (fun _ => 0) [1] [100, 101] 5 .persistent 0 0

/-- A plugin that asks for one of the two is served well. -/
theorem rows_filled_iff_one : ∃ (results : List (StdString × Cell)) (mem' : AmxMemory),
    (twoEntries.rankGetRange .insertionSort [1] 1 (bestTwo 1).fetchCount .desc 0).2 =
      some results ∧
    (amxxMemRankGetRange .insertionSort .signedChars twoEntries emptyRows (bestTwo 1) 0).2 =
      some (mem', Int32.ofNat results.length) ∧
    Filled .signedChars (twoRows 1) emptyRows mem' results :=
  (@rows_filled_iff .insertionSort .signedChars twoEntries 0 (bestTwo 1) .desc (twoRows 1)
    (show ([1] : StdString) ≠ [] by decide) (show (1 : ℤ) ≤ (1 : Cell).toInt by decide)
    (show (1 : ℤ) ≤ (1 : Cell).toInt by decide) (show (1 : ℤ) ≤ (2 : Cell).toInt by decide)
    (show (1 : ℤ) ≤ (3 : Cell).toInt by decide) rfl).mpr (.inl rfl) emptyRows
    (indirect_emptyRows 1)

/-- Of the second key, `de`, the plugin reads only the second character. -/
theorem second_row_is_shifted : ¬ ∀ (lib : AmxLibrary) (steps : List (Call × Reply)) (w : World),
    RunFromStart .insertionSort Machine.anyStep steps w →
    ∀ (now : TimePoint) (p : RangeParams) (order : RankOrder) (b : RowBuffer p), p.ns ≠ [] →
      1 ≤ p.startPos.toInt → 1 ≤ p.count.toInt → 1 ≤ p.maxItems.toInt → 1 ≤ p.maxKeyLen.toInt →
      p.order.elim (some .desc) rankOrderOf = some order →
      ∀ mem, b.Indirect mem → ∃ (results : List (StdString × Cell)) (mem' : AmxMemory),
        (w.store.rankGetRange .insertionSort p.ns p.startPos p.fetchCount order now).2 =
          some results ∧
        (amxxMemRankGetRange .insertionSort lib w.store mem p now).2 =
          some (mem', Int32.ofNat results.length) ∧
        Filled lib b mem mem' results := by
  intro h
  have hrun : ∃ w : World, RunFromStart .insertionSort Machine.anyStep
      [(⟨.write (.rankSet [1] [98, 99] 9 .persistent 0), .at 0 fun _ => 0⟩, .flag true),
        (⟨.write (.rankSet [1] [100, 101] 5 .persistent 0), .at 0 fun _ => 0⟩, .flag true)] w ∧
      (w.store.rankGetRange .insertionSort [1] 1 2 .desc 0).2 =
        some [([98, 99], 9), ([100, 101], 5)] ∧
      (amxxMemRankGetRange .insertionSort .signedChars w.store emptyRows (bestTwo 2) 0).2 =
        some (writeRows .signedChars 100 0 3 0 [([98, 99], 9), ([100, 101], 5)] emptyRows, 2) :=
    ⟨⟨_, 0⟩, ⟨0, run_cons trivial le_rfl rfl (run_cons trivial le_rfl rfl (.nil _))⟩, by decide,
      rfl⟩
  obtain ⟨w, hrun, hrange, hcall⟩ := hrun
  obtain ⟨results, mem', hresults, hwritten, hfilled⟩ :=
    h .signedChars _ w hrun 0 (bestTwo 2) .desc (twoRows 2) (by decide) (by decide) (by decide)
      (by decide) (by decide) rfl emptyRows (indirect_emptyRows 2)
  have hsame : some results = some [([98, 99], 9), ([100, 101], 5)] :=
    hresults.symm.trans hrange
  cases hsame
  rw [hcall] at hwritten
  cases hwritten
  have hread := hfilled.keys 1 [100, 101] 5 rfl 0 100 rfl
  have hshifted : (writeRows .signedChars 100 0 3 0 [([98, 99], 9), ([100, 101], 5)]
      emptyRows).read2 100 1 0 = 101 := by decide
  exact absurd (hread.symm.trans hshifted) (by decide)

end MemStore
