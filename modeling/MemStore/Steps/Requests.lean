import MemStore.KeyValue.Values

/-!
# Requests

A `Request` is what a call comes to once it is known whether it succeeded:
the setters of all types are one `write`, the two increments one `increment`,
and every call that only reads is a `read`.  It is computed from the call, its
reply and the limits, without a look at the stored data.

A call that fails comes to nothing (`pass`), with one exception that is kept
apart: a setter with a payload that is refused may still have left a trace under
its key, and is a `reject` of the value it would have stored.

A history does not trust the replies that far: only setters and increments are
entered by their success, and everything else by the call alone (`Op.entered`).
-/

namespace MemStore

inductive Request
  | pass
  | read
  | setLimits (maxKeysPerNs maxArraySize maxStringLen maxNamespaces maxMemoryMb : SizeT)
  | reject (ns key : StdString) (v : Value)
  | write (ns key : StdString) (v : Value) (policy : ExpirePolicy) (extra : Int32)
  | increment (ns key : StdString) (delta : Value) (policy : ExpirePolicy) (extra : Int32)
  | reexpire (ns key : StdString) (policy : ExpirePolicy) (extra : Int32)
  | deleteKey (ns key : StdString)
  | clearNamespace (ns : StdString)
  | rankWrite (ns key : StdString) (score : Cell) (policy : ExpirePolicy) (extra : Int32)
  | rankIncrement (ns key : StdString) (delta : Cell) (policy : ExpirePolicy) (extra : Int32)
  | rankDelete (ns key : StdString)
  | rankClear (ns : StdString)
  | sweep
  | clearAll

/-- What a call asks for when it succeeds.  The setters with a payload cut it
down to the limits in force. -/
def Op.request (limits : Limits) : Op → Request
  | .write (.setInt ns key val policy extra) => .write ns key (.int val) policy extra
  | .write (.setFloat ns key val policy extra) => .write ns key (.float val) policy extra
  | .write (.setString ns key val policy extra) =>
      .write ns key (.string (val.take limits.maxStringLength.toNat)) policy extra
  | .write (.setArray ns key data policy extra) =>
      .write ns key (.array (data.take limits.maxArraySize.toNat)) policy extra
  | .write (.incInt ns key delta policy extra) => .increment ns key (.int delta) policy extra
  | .write (.incFloat ns key delta policy extra) => .increment ns key (.float delta) policy extra
  | .write (.rankSet ns key score policy extra) => .rankWrite ns key score policy extra
  | .write (.rankInc ns key delta policy extra) => .rankIncrement ns key delta policy extra
  | .deleteKey ns key => .deleteKey ns key
  | .clearNamespace ns => .clearNamespace ns
  | .setExpire ns key policy extra => .reexpire ns key policy extra
  | .rankDelete ns key => .rankDelete ns key
  | .rankClear ns => .rankClear ns
  | .setLimits maxKeysPerNs maxArraySize maxStringLen maxNamespaces maxMemoryMb =>
      .setLimits maxKeysPerNs maxArraySize maxStringLen maxNamespaces maxMemoryMb
  | .sweepMapEnd => .sweep
  | .clearAll | .flushAll => .clearAll
  | .query _ | .getKeyAt _ _ => .read
  | .getMemoryStats => .pass

/-- What a call comes to when it fails. -/
def Op.refusal (limits : Limits) : Op → Request
  | .write (.setString ns key val _ _) =>
      .reject ns key (.string (val.take limits.maxStringLength.toNat))
  | .write (.setArray ns key data _ _) =>
      .reject ns key (.array (data.take limits.maxArraySize.toNat))
  | .query _ | .getKeyAt _ _ => .read
  | _ => .pass

/-- What a call with this reply came to. -/
def Op.outcome (limits : Limits) (op : Op) (reply : Reply) : Request :=
  if reply.succeeded then op.request limits else op.refusal limits

/-- What a call is entered as in a history.  A deletion is one whatever it returns. -/
def Op.entered (limits : Limits) (op : Op) (reply : Reply) : Request :=
  match op with
  | .write _ => op.outcome limits reply
  | _ => op.request limits

/-- What a call comes to is what it asks for, unless that is nothing, a read or a
rejection. -/
private theorem request_of_outcome {limits : Limits} {op : Op} {reply : Reply} {req : Request}
    (h : op.outcome limits reply = req) (hpass : req ≠ .pass) (hread : req ≠ .read)
    (hreject : ∀ ns key v, req ≠ .reject ns key v) : op.request limits = req := by
  unfold Op.outcome at h
  split at h
  · exact h
  · -- what a failed call comes to is one of the three
    cases op with
    | query | getKeyAt => exact absurd h.symm hread
    | write w =>
        cases w with
        | setString | setArray => exact absurd h.symm (hreject _ _ _)
        | _ => exact absurd h.symm hpass
    | _ => exact absurd h.symm hpass

/-- Only `SetExpire` comes to a new expiration. -/
theorem outcome_eq_reexpire {limits : Limits} {op : Op} {reply : Reply} {ns key : StdString}
    {policy : ExpirePolicy} {extra : Int32}
    (h : op.outcome limits reply = .reexpire ns key policy extra) :
    op = .setExpire ns key policy extra := by
  have hrequest := request_of_outcome h (by simp) (by simp) (by simp)
  cases op with
  | setExpire ns' key' policy' extra' =>
      cases hrequest
      rfl
  | write w => cases w <;> cases hrequest
  | _ => cases hrequest

/-- What a setter writes is within the limits. -/
theorem footprint_le_of_request {limits : Limits} {op : Op} {ns key : StdString} {v : Value}
    {policy : ExpirePolicy} {extra : Int32}
    (h : op.request limits = .write ns key v policy extra) :
    v.footprint ≤ max (4 * limits.maxArraySize.toNat) limits.maxStringLength.toNat := by
  cases op with
  | write w =>
      cases w with
      | setString ns key val policy extra =>
          cases h
          simp only [Value.footprint, List.length_take]
          omega
      | setArray ns key data policy extra =>
          cases h
          simp only [Value.footprint, List.length_take]
          omega
      | setInt | setFloat =>
          cases h
          exact Nat.zero_le _
      | _ => cases h
  | _ => cases h

theorem outcome_eq_write {limits : Limits} {op : Op} {reply : Reply} {ns key : StdString}
    {v : Value} {policy : ExpirePolicy} {extra : Int32}
    (h : op.outcome limits reply = .write ns key v policy extra) :
    op.request limits = .write ns key v policy extra :=
  request_of_outcome h (by simp) (by simp) (by simp)

theorem outcome_eq_rankWrite {limits : Limits} {op : Op} {reply : Reply} {ns key : StdString}
    {score : Cell} {policy : ExpirePolicy} {extra : Int32}
    (h : op.outcome limits reply = .rankWrite ns key score policy extra) :
    op = .write (.rankSet ns key score policy extra) := by
  have hrequest := request_of_outcome h (by simp) (by simp) (by simp)
  cases op with
  | write w =>
      cases w <;> cases hrequest
      rfl
  | _ => cases hrequest

theorem outcome_eq_rankIncrement {limits : Limits} {op : Op} {reply : Reply} {ns key : StdString}
    {delta : Cell} {policy : ExpirePolicy} {extra : Int32}
    (h : op.outcome limits reply = .rankIncrement ns key delta policy extra) :
    op = .write (.rankInc ns key delta policy extra) := by
  have hrequest := request_of_outcome h (by simp) (by simp) (by simp)
  cases op with
  | write w =>
      cases w <;> cases hrequest
      rfl
  | _ => cases hrequest

theorem outcome_eq_setLimits {limits : Limits} {op : Op} {reply : Reply} {a b c d e : SizeT}
    (h : op.outcome limits reply = .setLimits a b c d e) : op = .setLimits a b c d e := by
  have hrequest := request_of_outcome h (by simp) (by simp) (by simp)
  cases op with
  | setLimits a' b' c' d' e' =>
      cases hrequest
      rfl
  | write w => cases w <;> cases hrequest
  | _ => cases hrequest

theorem outcome_eq_clearAll {limits : Limits} {op : Op} {reply : Reply}
    (h : op.outcome limits reply = .clearAll) : op = .clearAll ∨ op = .flushAll := by
  have hrequest := request_of_outcome h (by simp) (by simp) (by simp)
  cases op with
  | clearAll => exact .inl rfl
  | flushAll => exact .inr rfl
  | write w => cases w <;> cases hrequest
  | _ => cases hrequest

/-- Only the read operations and `GetKeyAt` come to a read. -/
theorem outcome_eq_read {limits : Limits} {op : Op} {reply : Reply}
    (h : op.outcome limits reply = .read) :
    (∃ q, op = .query q) ∨ ∃ ns index, op = .getKeyAt ns index := by
  unfold Op.outcome at h
  cases op with
  | query q => exact .inl ⟨q, rfl⟩
  | getKeyAt ns index => exact .inr ⟨ns, index, rfl⟩
  | write w => split at h <;> cases w <;> cases h
  | _ => split at h <;> cases h

/-- Only a setter with a payload comes to a rejection. -/
theorem outcome_eq_reject {limits : Limits} {op : Op} {reply : Reply} {ns key : StdString}
    {v : Value} (h : op.outcome limits reply = .reject ns key v) :
    ¬ v.IsNumber ∧ ∃ policy extra, op.request limits = .write ns key v policy extra := by
  unfold Op.outcome at h
  split at h
  · cases op with
    | write w => cases w <;> cases h
    | _ => cases h
  · cases op with
    | write w =>
        cases w with
        | setString ns' key' val policy extra =>
            cases h
            exact ⟨nofun, policy, extra, rfl⟩
        | setArray ns' key' data policy extra =>
            cases h
            exact ⟨nofun, policy, extra, rfl⟩
        | _ => cases h
    | _ => cases h

/-- A setter with a payload comes to a rejection if it fails. -/
theorem refusal_of_request {limits : Limits} {op : Op} {ns key : StdString} {v : Value}
    {policy : ExpirePolicy} {extra : Int32}
    (h : op.request limits = .write ns key v policy extra) (hpayload : ¬ v.IsNumber) :
    op.refusal limits = .reject ns key v := by
  cases op with
  | write w =>
      cases w with
      | setInt =>
          cases h
          exact absurd (.int _) hpayload
      | setFloat =>
          cases h
          exact absurd (.float _) hpayload
      | setString | setArray =>
          cases h
          rfl
      | _ => cases h
  | _ => cases h

end MemStore
