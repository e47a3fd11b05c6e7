import RingStore.Fault

/-!
# Limits on keys and values

A key has at most 256 bytes and a value at most 1024, everywhere in the system. The bytes
themselves are free.
-/

namespace RingStore

/-- The most bytes a key may have. -/
def maxKeyBytes : Nat := 256

/-- The most bytes a value may have. -/
def maxValueBytes : Nat := 1024

/-- Refuses a key that is too long. -/
def checkKey (key : String) : Except Fault Unit :=
  if maxKeyBytes < Text.size key then .error .keyTooLong else .ok ()

/-- Refuses a value that is too long. -/
def checkValue (value : String) : Except Fault Unit :=
  if maxValueBytes < Text.size value then .error .valueTooLong else .ok ()

/-- Refuses a pair whose key or value is too long; the key is looked at first. -/
def checkPair (key value : String) : Except Fault Unit := do
  checkKey key
  checkValue value

theorem checkKey_eq_ok {key : String} : checkKey key = .ok () ↔ Text.size key ≤ maxKeyBytes := by
  unfold checkKey
  split <;> simp <;> omega

theorem checkValue_eq_ok {value : String} :
    checkValue value = .ok () ↔ Text.size value ≤ maxValueBytes := by
  unfold checkValue
  split <;> simp <;> omega

theorem checkPair_eq_ok {key value : String} :
    checkPair key value = .ok () ↔
      Text.size key ≤ maxKeyBytes ∧ Text.size value ≤ maxValueBytes := by
  rw [← checkKey_eq_ok, ← checkValue_eq_ok]
  unfold checkPair
  cases checkKey key with
  | error f => simp [bind, Except.bind]
  | ok _ => simp [bind, Except.bind]

end RingStore
