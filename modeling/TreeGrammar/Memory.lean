/-
# Room in memory

What is kept in one block of memory takes less than 2^63 bytes.  Where room for many items is set
aside at once this can fail, however few of them there come to be.
-/

namespace TreeGrammar

/-- A block of memory has fewer bytes than this. -/
def blockBound : Nat := 9223372036854775808

/-- There is no room for so many items. -/
structure NoRoom where
  items : Nat
deriving DecidableEq

/-- Sets room aside for `n` items of so many bytes each. -/
def setAside (bytes n : Nat) : Except NoRoom Unit :=
  if bytes * n < blockBound then .ok () else .error ⟨n⟩

/-- If there is room, things go on as if none were needed. -/
theorem setAside_bind {β : Type} (bytes n : Nat) (f : Unit → Except NoRoom β) :
    setAside bytes n >>= f = if bytes * n < blockBound then f () else .error ⟨n⟩ := by
  rw [setAside]
  split
  · rfl
  · rfl

end TreeGrammar
