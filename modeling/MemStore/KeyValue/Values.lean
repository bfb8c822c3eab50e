import MemStore.KeyValue.Edits

/-!
# Values

A `Value` is what a caller stores under a key: one of four types with its
payload.  `StoreEntry` spreads it over a type tag and four fields; `fill` writes
a value into an entry and `value?` reads it back, which finds nothing in the
entry that `operator[]` creates.

An entry is `Tidy` when the fields its tag does not name are empty and its
payload fits the address space; for such entries `getPayloadBytes` is the true
size of what is stored.
-/

namespace MemStore

inductive Value
  | int (val : Cell)
  | float (val : Float32)
  | string (val : StdString)
  | array (cells : List Cell)

namespace Value

def type : Value → EntryType
  | int _ => .int
  | float _ => .float
  | string _ => .string
  | array _ => .array

/-- Replace the value of an entry. -/
def fill (v : Value) (entry : StoreEntry) : StoreEntry :=
  match v with
  | int val => entry.fill .int val 0 [] []
  | float val => entry.fill .float 0 val [] []
  | string val => entry.fill .string 0 0 val []
  | array cells => entry.fill .array 0 0 [] cells

/-- The payload a value takes from the quota, as `size_t`. -/
def bytes : Value → SizeT
  | string val => UInt32.ofNat val.length
  | array cells => UInt32.ofNat cells.length * sizeofCell
  | _ => 0

/-- The payload a value takes up. -/
def footprint : Value → ℕ
  | string val => val.length
  | array cells => 4 * cells.length
  | _ => 0

/-- The value after an increment. -/
def plus (old delta : Value) : Value :=
  match old, delta with
  | int a, int b => int (a + b)
  | float a, float b => float (a + b)
  | _, _ => old

/-- Increment a live entry in place. -/
def addTo (delta : Value) (entry : StoreEntry) : StoreEntry :=
  match delta with
  | int d => { entry with cellValue := entry.cellValue + d }
  | float d => { entry with floatValue := entry.floatValue + d }
  | _ => entry

/-- The values that can be added. -/
inductive IsNumber : Value → Prop
  | int (val : Cell) : IsNumber (int val)
  | float (val : Float32) : IsNumber (float val)

end Value

namespace StoreEntry

/-- The value an entry holds, if its type says that it holds one. -/
def value? (entry : StoreEntry) : Option Value :=
  match entry.type with
  | .none => none
  | .int => some (.int entry.cellValue)
  | .float => some (.float entry.floatValue)
  | .string => some (.string entry.stringValue)
  | .array => some (.array entry.arrayValue)

/-- The fields the type does not name are empty, and the payload fits `size_t`. -/
structure Tidy (entry : StoreEntry) : Prop where
  stringValue : entry.type ≠ .string → entry.stringValue = []
  arrayValue : entry.type ≠ .array → entry.arrayValue = []
  fits : entry.stringValue.length + 4 * entry.arrayValue.length < 2 ^ 32

theorem value?_eq_int_iff {entry : StoreEntry} {val : Cell} :
    entry.value? = some (.int val) ↔ entry.type = .int ∧ entry.cellValue = val := by
  unfold value?
  split <;> simp_all

theorem value?_eq_float_iff {entry : StoreEntry} {val : Float32} :
    entry.value? = some (.float val) ↔ entry.type = .float ∧ entry.floatValue = val := by
  unfold value?
  split <;> simp_all

theorem value?_eq_string_iff {entry : StoreEntry} {val : StdString} :
    entry.value? = some (.string val) ↔ entry.type = .string ∧ entry.stringValue = val := by
  unfold value?
  split <;> simp_all

theorem value?_eq_array_iff {entry : StoreEntry} {cells : List Cell} :
    entry.value? = some (.array cells) ↔ entry.type = .array ∧ entry.arrayValue = cells := by
  unfold value?
  split <;> simp_all

theorem tidy_default : Tidy {} := ⟨fun _ => rfl, fun _ => rfl, by decide⟩

theorem Tidy.toNat_getPayloadBytes {entry : StoreEntry} (h : entry.Tidy) :
    (getPayloadBytes entry).toNat = entry.stringValue.length + 4 * entry.arrayValue.length := by
  have hfits := h.fits
  have hstring := h.stringValue
  have harray := h.arrayValue
  unfold getPayloadBytes
  cases htype : entry.type with
  | string =>
      rw [harray (by simp [htype])] at hfits ⊢
      simp only [List.length_nil] at hfits ⊢
      exact UInt32.toNat_ofNat_of_lt' (by omega)
  | array =>
      rw [hstring (by simp [htype])] at hfits ⊢
      simp only [List.length_nil, zero_add] at hfits ⊢
      -- the product is the payload, which fits
      rw [UInt32.toNat_mul, UInt32.toNat_ofNat_of_lt' (by simp only [UInt32.size]; omega)]
      have hcell : sizeofCell.toNat = 4 := by decide
      rw [hcell]
      omega
  | _ =>
      rw [hstring (by simp [htype]), harray (by simp [htype])]
      rfl

end StoreEntry

namespace Value

variable (v delta : Value) (entry : StoreEntry)

@[simp] theorem toExpiration_fill : (v.fill entry).toExpiration = entry.toExpiration := by
  cases v <;> rfl

@[simp] theorem type_fill : (v.fill entry).type = v.type := by
  cases v <;> rfl

@[simp] theorem value?_fill : (v.fill entry).value? = some v := by
  cases v <;> rfl

@[simp] theorem getPayloadBytes_fill : getPayloadBytes (v.fill entry) = v.bytes := by
  cases v <;> rfl

theorem tidy_fill (h : v.footprint < 2 ^ 32) : (v.fill entry).Tidy := by
  cases v with
  | int val => exact ⟨fun _ => rfl, fun _ => rfl, by simp [fill, StoreEntry.fill]⟩
  | float val => exact ⟨fun _ => rfl, fun _ => rfl, by simp [fill, StoreEntry.fill]⟩
  | string val =>
      refine ⟨fun hne => absurd rfl hne, fun _ => rfl, ?_⟩
      simpa [fill, StoreEntry.fill, footprint] using h
  | array cells =>
      refine ⟨fun _ => rfl, fun hne => absurd rfl hne, ?_⟩
      simpa [fill, StoreEntry.fill, footprint] using h

theorem toNat_bytes (h : v.footprint < 2 ^ 32) : v.bytes.toNat = v.footprint := by
  have hfill := (v.tidy_fill {} h).toNat_getPayloadBytes
  rw [getPayloadBytes_fill] at hfill
  rw [hfill]
  cases v <;> simp [fill, StoreEntry.fill, footprint]

@[simp] theorem toExpiration_addTo : (delta.addTo entry).toExpiration = entry.toExpiration := by
  cases delta <;> rfl

@[simp] theorem type_addTo : (delta.addTo entry).type = entry.type := by
  cases delta <;> rfl

@[simp] theorem getPayloadBytes_addTo :
    getPayloadBytes (delta.addTo entry) = getPayloadBytes entry := by
  cases delta <;> rfl

theorem tidy_addTo (h : entry.Tidy) : (delta.addTo entry).Tidy := by
  cases delta <;> exact ⟨h.stringValue, h.arrayValue, h.fits⟩

theorem IsNumber.bytes_eq_zero {v : Value} (h : v.IsNumber) : v.bytes = 0 := by
  cases h <;> rfl

/-- A number overwrites a stored entry in place. -/
theorem IsNumber.overwrite_of_entryAt {v : Value} (hnumber : v.IsNumber) {s : MemStoreManager}
    {ns key : StdString} {e : StoreEntry} (h : s.entryAt ns key = some e) (layout : Layout)
    (policy : ExpirePolicy) (extra : Int32) (now : TimePoint) :
    s.overwrite layout ns key v.fill v.bytes policy extra now =
      ((s.release (getPayloadBytes e)).modifyEntry ns key fun e =>
        applyExpiration (v.fill e) policy extra now).invalidateKeyCache ns := by
  rw [hnumber.bytes_eq_zero]
  exact MemStoreManager.overwrite_of_entryAt h layout v.fill now

theorem IsNumber.toNat_bytes {v : Value} (h : v.IsNumber) : v.bytes.toNat = 0 := by
  rw [h.bytes_eq_zero]
  rfl

theorem IsNumber.footprint_eq_zero {v : Value} (h : v.IsNumber) : v.footprint = 0 := by
  cases h <;> rfl

theorem IsNumber.value?_addTo {delta : Value} (h : delta.IsNumber) {entry : StoreEntry}
    (htype : entry.type = delta.type) :
    ∃ old, entry.value? = some old ∧ (delta.addTo entry).value? = some (old.plus delta) := by
  cases h with
  | int d =>
      have htype' : entry.type = .int := htype
      exact ⟨.int entry.cellValue, by simp [StoreEntry.value?, htype'],
        by simp [StoreEntry.value?, addTo, plus, htype']⟩
  | float d =>
      have htype' : entry.type = .float := htype
      exact ⟨.float entry.floatValue, by simp [StoreEntry.value?, htype'],
        by simp [StoreEntry.value?, addTo, plus, htype']⟩

end Value

/-! ## Values and expiration -/

section Expiration

open MemStoreManager

variable (entry : StoreEntry) (policy : ExpirePolicy) (extra : Int32) (now : TimePoint)

@[simp] theorem value?_applyExpiration :
    (applyExpiration entry policy extra now).value? = entry.value? := rfl

@[simp] theorem getPayloadBytes_applyExpiration :
    getPayloadBytes (applyExpiration entry policy extra now) = getPayloadBytes entry := rfl

theorem tidy_applyExpiration (h : entry.Tidy) : (applyExpiration entry policy extra now).Tidy :=
  ⟨h.stringValue, h.arrayValue, h.fits⟩

@[simp] theorem toExpiration_applyExpiration :
    (applyExpiration entry policy extra now).toExpiration =
      entry.toExpiration.apply policy extra now := rfl

theorem reapplyExpiration_eq : ∃ x, reapplyExpiration entry policy extra now =
    { entry with toExpiration := x } := by
  unfold reapplyExpiration
  split
  · exact ⟨_, rfl⟩
  · exact ⟨_, rfl⟩

@[simp] theorem value?_reapplyExpiration :
    (reapplyExpiration entry policy extra now).value? = entry.value? := by
  obtain ⟨_, h⟩ := reapplyExpiration_eq entry policy extra now
  rw [h]
  rfl

@[simp] theorem getPayloadBytes_reapplyExpiration :
    getPayloadBytes (reapplyExpiration entry policy extra now) = getPayloadBytes entry := by
  obtain ⟨_, h⟩ := reapplyExpiration_eq entry policy extra now
  rw [h]
  rfl

theorem tidy_reapplyExpiration (h : entry.Tidy) :
    (reapplyExpiration entry policy extra now).Tidy := by
  obtain ⟨_, heq⟩ := reapplyExpiration_eq entry policy extra now
  rw [heq]
  exact ⟨h.stringValue, h.arrayValue, h.fits⟩

end Expiration

/-! ## Typed reads -/

/-- A typed getter returns true with the value of a live entry of its type. -/
theorem readAs_eq_iff {α : Type} {type : EntryType} {value : StoreEntry → α} {defaultVal v : α}
    {o : Option StoreEntry} :
    (MemStoreManager.readAs type value defaultVal o).ret = true ∧
        (MemStoreManager.readAs type value defaultVal o).val = v ↔
      ∃ e, o = some e ∧ e.type = type ∧ value e = v := by
  cases o with
  | none => simp [MemStoreManager.readAs]
  | some e => by_cases htype : e.type = type <;> simp [MemStoreManager.readAs, htype]

end MemStore
