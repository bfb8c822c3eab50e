import MemStore.Natives.Steps

/-!
# Texts and arrays in plugin memory

What a native has written can be read back from where it was written: a text as
far as it fits (`getAmxString_setAmxString`), an array cell by cell
(`cells_setCells`).

`AmxHost.signedChars` is a host of this kind.  Its texts end at the first
character that is zero.
-/

namespace MemStore

/-! ## Reading back -/

/-- A text comes back as far as there was room for it, from any memory that has
the cells that were written. -/
theorem AmxHost.getAmxString_of_agree (host : AmxHost) {mem mem' : AmxMemory} {dest : Cell}
    {text : StdString} {maxlen : Cell} (hpos : 0 < maxlen) (hzero : 0 ∉ text)
    (hfits : (text.take maxlen.toInt.toNat).length ≤ host.maxText)
    (hagree : ∀ a, InCells dest (maxlen.toInt.toNat + 1) a →
      mem' a = host.setAmxString mem dest text maxlen a) :
    host.getAmxString mem' dest = some (text.take maxlen.toInt.toNat) := by
  have hshort := host.maxText_lt
  let cells := (text.take maxlen.toInt.toNat).map host.charCell ++ [0]
  have hlength : cells.length = (text.take maxlen.toInt.toNat).length + 1 := by
    rw [List.length_append, List.length_map, List.length_singleton]
  have hread : ∀ j (hj : j < cells.length), mem'.read dest j = cells[j] := by
    intro j hj
    have hroom : j < maxlen.toInt.toNat + 1 := by
      rw [hlength, List.length_take] at hj
      omega
    rw [AmxMemory.read_eq, hagree _ ⟨j, hroom, rfl⟩,
      host.setAmxString_eq mem dest text maxlen hpos hzero]
    exact AmxMemory.read_setCells (by omega) hj
  refine host.getAmxString_of_read hfits (fun hmem => hzero (List.mem_of_mem_take hmem)) ?_ ?_
  · intro j c hc
    obtain ⟨hj, rfl⟩ := List.getElem?_eq_some_iff.mp hc
    rw [hread j (by omega), List.getElem_append_left (by rwa [List.length_map]), List.getElem_map]
  · rw [hread _ (by omega), List.getElem_append_right (by rw [List.length_map]),
      List.getElem_singleton]

theorem AmxHost.getAmxString_setAmxString (host : AmxHost) (mem : AmxMemory) (dest : Cell)
    {text : StdString} {maxlen : Cell} (hpos : 0 < maxlen) (hzero : 0 ∉ text)
    (hfits : (text.take maxlen.toInt.toNat).length ≤ host.maxText) :
    host.getAmxString (host.setAmxString mem dest text maxlen) dest =
      some (text.take maxlen.toInt.toNat) :=
  host.getAmxString_of_agree hpos hzero hfits fun _ _ => rfl

theorem AmxMemory.length_cells (mem : AmxMemory) (base : Cell) (size : ℕ) :
    (mem.cells base size).length = size := by
  rw [AmxMemory.cells, List.length_map, List.length_range]

/-- Stored cells are read back. -/
theorem AmxMemory.cells_setCells (mem : AmxMemory) (base : Cell) {cells : List Cell}
    (hfits : cells.length ≤ 2 ^ 30) :
    (mem.setCells base cells).cells base cells.length = cells := by
  refine List.ext_getElem (length_cells ..) fun j _ hj => ?_
  simp only [AmxMemory.cells, List.getElem_map, List.getElem_range]
  exact read_setCells hfits hj

/-- Memories that agree on an array hold the same array. -/
theorem AmxMemory.cells_congr {mem mem' : AmxMemory} {base : Cell} {size : ℕ}
    (h : ∀ a, InCells base size a → mem' a = mem a) : mem'.cells base size = mem.cells base size :=
  List.map_congr_left fun j hj => h _ ⟨j, List.mem_range.mp hj, rfl⟩

/-! ## A host -/

/-- The text at an address, cut off after `n` characters. -/
def AmxMemory.text (mem : AmxMemory) : ℕ → Cell → StdString
  | 0, _ => []
  | n + 1, addr =>
      let c := (mem addr).toInt8.toUInt8
      if c = 0 then [] else c :: mem.text n (addr + 4)

theorem AmxMemory.zero_notMem_text (mem : AmxMemory) (n : ℕ) (addr : Cell) :
    0 ∉ mem.text n addr := by
  induction n generalizing addr with
  | zero => exact List.not_mem_nil
  | succ n ih =>
      rw [AmxMemory.text]
      split
      · exact List.not_mem_nil
      · next hne => exact List.not_mem_cons_of_ne_of_not_mem (fun h => hne h.symm) (ih _)

theorem AmxMemory.text_of_read {mem : AmxMemory} {n : ℕ} {addr : Cell} {s : StdString}
    (hlength : s.length ≤ n) (hzero : 0 ∉ s)
    (hchars : ∀ (j : ℕ) (c : UInt8), s[j]? = some c → mem.read addr j = c.toInt8.toInt32)
    (hend : mem.read addr s.length = 0) : mem.text n addr = s := by
  induction n generalizing addr s with
  | zero => rw [AmxMemory.text, List.length_eq_zero_iff.mp (Nat.le_zero.mp hlength)]
  | succ n ih =>
      rw [AmxMemory.text]
      cases s with
      | nil =>
          rw [List.length_nil, AmxMemory.read_eq, cellAddr_zero] at hend
          rw [hend]
          rfl
      | cons c s =>
          have hshift : ∀ j, mem.read (addr + 4) j = mem.read addr (j + 1) := by
            intro j
            rw [Nat.add_comm]
            exact congrArg mem (cellAddr_add addr 1 j)
          have hc := hchars 0 c rfl
          rw [AmxMemory.read_eq, cellAddr_zero] at hc
          have hne : c ≠ 0 := fun h => hzero (h ▸ List.mem_cons_self)
          rw [hc, Int8.toInt8_toInt32, UInt8.toUInt8_toInt8, if_neg hne]
          congr 1
          refine ih (Nat.le_of_succ_le_succ hlength) (fun h => hzero (List.mem_cons_of_mem c h))
            ?_ ?_
          · intro j c' hc'
            rw [hshift]
            exact hchars (j + 1) c' hc'
          · rw [hshift]
            exact hend

/-- The host with signed characters, 32-bit floats and buffers of 256 characters. -/
def AmxHost.signedChars : AmxHost where
  toAmxLibrary := AmxLibrary.signedChars
  getAmxString mem addr := some (mem.text 255 addr)
  hasAddr _ := true
  ctof value := Float32.ofBits value.toUInt32
  ftoc value := value.toBits.toInt32
  maxText := 255
  maxText_lt := by decide
  zero_notMem_of_getAmxString := by
    intro mem addr s h
    cases h
    exact mem.zero_notMem_text 255 addr
  getAmxString_of_read hlength hzero hchars hend :=
    congrArg some (AmxMemory.text_of_read hlength hzero hchars hend)

/-- A memory with texts of one and two characters, at the addresses 100, 200 and 300. -/
def threeTexts : AmxMemory :=
  ((AmxMemory.setCells (fun _ => 0) 100 [110, 0]).setCells 200 [107, 0]).setCells 300 [104, 105, 0]

end MemStore
