import LiteVision.Bytes
import LiteVision.Lib.Trace
import Mathlib.Data.List.Induction

/-!
# Keys and their history

`KeyManager` has the current key and the rotations that led to it, each with the key before.
`key_at_height`: walking back through them finds, for any height, the key of the last
rotation that is not above it.
-/

namespace LiteVision.Truth

open Lib

inductive KeyRotationType
  | regular
  | emergency
  | slashing
  deriving DecidableEq, Repr

structure KeyRotationRecord where
  oldKey : Bytes 32
  newKey : Bytes 32
  height : UInt64
  rotationType : KeyRotationType
  deriving DecidableEq

structure KeyManager where
  currentKey : Bytes 32
  rotationHistory : List KeyRotationRecord
  deriving DecidableEq

namespace KeyManager

def new (initialKey : Bytes 32) : KeyManager where
  currentKey := initialKey
  rotationHistory := []

def rotate (m : KeyManager) (newKey : Bytes 32) (height : UInt64)
    (rotationType : KeyRotationType) : KeyManager :=
  let record : KeyRotationRecord := { oldKey := m.currentKey, newKey, height, rotationType }
  { m with
    rotationHistory := m.rotationHistory ++ [record]
    currentKey := newKey }

def getKeyAtHeight.loop (height : UInt64) (key : Bytes 32) :
    List KeyRotationRecord → Option (Bytes 32)
  | [] => some key
  | record :: records =>
    if record.height ≤ height then some key else loop height record.oldKey records

def getKeyAtHeight (m : KeyManager) (height : UInt64) : Option (Bytes 32) :=
  getKeyAtHeight.loop height m.currentKey m.rotationHistory.reverse

structure Rotation where
  newKey : Bytes 32
  height : UInt64
  rotationType : KeyRotationType
  deriving DecidableEq

def step (m : KeyManager) (r : Rotation) : KeyManager := m.rotate r.newKey r.height r.rotationType

/-- The key of the last rotation that is not above the height, or the first key. -/
def keyAt (initialKey : Bytes 32) (run : List Rotation) (height : UInt64) : Bytes 32 :=
  ((run.filter fun r => r.height ≤ height).getLast?.map Rotation.newKey).getD initialKey

theorem getKeyAtHeight_step (m : KeyManager) (r : Rotation) (height : UInt64) :
    (m.step r).getKeyAtHeight height =
      if r.height ≤ height then some r.newKey else m.getKeyAtHeight height := by
  simp only [step, rotate, getKeyAtHeight, List.reverse_append, List.reverse_singleton,
    List.singleton_append, getKeyAtHeight.loop]

theorem keyAt_concat (initialKey : Bytes 32) (run : List Rotation) (r : Rotation)
    (height : UInt64) :
    keyAt initialKey (run ++ [r]) height =
      if r.height ≤ height then r.newKey else keyAt initialKey run height := by
  by_cases h : r.height ≤ height <;> simp [keyAt, List.filter_append, h]

theorem getKeyAtHeight_exec (initialKey : Bytes 32) (run : List Rotation) (height : UInt64) :
    (Trace.exec step (new initialKey) run).getKeyAtHeight height =
      some (keyAt initialKey run height) := by
  induction run using List.reverseRecOn with
  | nil => rfl
  | append_singleton run r ih =>
    rw [Trace.exec_concat, getKeyAtHeight_step, ih, keyAt_concat, apply_ite some]

/-- After any rotations the key at a height is that of the last one not above it, and a
rotation above the height leaves it. -/
theorem key_at_height (initialKey : Bytes 32) (run : List Rotation) (height : UInt64) :
    (Trace.exec step (new initialKey) run).getKeyAtHeight height =
        some (keyAt initialKey run height) ∧
      ∀ r : Rotation, height < r.height →
        ((Trace.exec step (new initialKey) run).step r).getKeyAtHeight height =
          (Trace.exec step (new initialKey) run).getKeyAtHeight height := by
  refine ⟨getKeyAtHeight_exec initialKey run height, fun r habove => ?_⟩
  rw [getKeyAtHeight_step, if_neg (UInt64.not_le.mpr habove)]

/-- Rotations at 100 and 200, and one more at 200: the key at 150 is the second. -/
theorem key_at_height_three :
    let run : List Rotation := [⟨.fill 32 2, 100, .regular⟩, ⟨.fill 32 3, 200, .emergency⟩]
    let m := Trace.exec step (new (.fill 32 1)) run
    m.getKeyAtHeight 150 = some (.fill 32 2) ∧
      (m.step ⟨.fill 32 4, 200, .slashing⟩).getKeyAtHeight 150 = m.getKeyAtHeight 150 := by
  intro run m
  have hkey := key_at_height (.fill 32 1) run 150
  exact ⟨hkey.1.trans (by decide), hkey.2 ⟨.fill 32 4, 200, .slashing⟩ (by decide)⟩

end KeyManager

end LiteVision.Truth
