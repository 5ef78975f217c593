/-
  The register tables of `register_table.h`: arrays indexed by `uint8_t` register ids.

  `tableGet` and `tableSet` are the array accesses of the source, undefined out of
  bounds; `rd` and `wr` are the same accesses made total.
-/
import R10000.Error

namespace R10000

/-- `REG_LOG_FILE_SIZE` -/
abbrev regLogFileSize : ℕ := 32

/-- `REG_PHY_FILE_SIZE` -/
abbrev regPhyFileSize : ℕ := 64

variable {α : Type} {n : ℕ}

/-- The access `v[i]`. -/
def tableGet (v : Vector α n) (i : UInt8) : Except Fault α :=
  if h : i.toNat < n then .ok v[i.toNat] else .error .undefined

/-- The assignment `v[i] = x`. -/
def tableSet (v : Vector α n) (i : UInt8) (x : α) : Except Fault (Vector α n) :=
  if h : i.toNat < n then .ok (v.set i.toNat x) else .error .undefined

/-- The element of a register, the default element out of bounds. -/
def rd [Inhabited α] (v : Vector α n) (i : UInt8) : α := v[i.toNat]?.getD default

/-- The table with one element replaced, itself out of bounds. -/
def wr (v : Vector α n) (i : UInt8) (x : α) : Vector α n := v.setIfInBounds i.toNat x

theorem tableGet_eq [Inhabited α] {v : Vector α n} {i : UInt8} (h : i.toNat < n) :
    tableGet v i = .ok (rd v i) := by
  simp [tableGet, rd, h]

theorem tableSet_eq {v : Vector α n} {i : UInt8} (h : i.toNat < n) (x : α) :
    tableSet v i x = .ok (wr v i x) := by
  rw [tableSet, dif_pos h, wr, Vector.setIfInBounds, Vector.set]
  simp [Array.setIfInBounds, h]

theorem rd_wr [Inhabited α] {v : Vector α n} {i : UInt8} (h : i.toNat < n) (x : α) (j : UInt8) :
    rd (wr v i x) j = if j = i then x else rd v j := by
  simp only [rd, wr, Vector.getElem?_setIfInBounds]
  by_cases hij : j = i
  · subst hij; simp [h]
  · rw [if_neg (fun e => hij (UInt8.toNat_inj.1 e).symm), if_neg hij]

theorem rd_wr_same [Inhabited α] {v : Vector α n} {i : UInt8} (h : i.toNat < n) (x : α) :
    rd (wr v i x) i = x := by rw [rd_wr h, if_pos rfl]

theorem rd_wr_ne [Inhabited α] {v : Vector α n} {i j : UInt8} (x : α) (hij : j ≠ i) :
    rd (wr v i x) j = rd v j := by
  simp only [rd, wr, Vector.getElem?_setIfInBounds]
  rw [if_neg fun e => hij (UInt8.toNat_inj.1 e).symm]

/-- Writes to different registers commute. -/
theorem wr_comm {v : Vector α n} {i j : UInt8} (hij : i ≠ j) (x y : α) :
    wr (wr v i x) j y = wr (wr v j y) i x :=
  Vector.setIfInBound_comm _ _ fun h => hij (UInt8.toNat_inj.1 h)

end R10000
