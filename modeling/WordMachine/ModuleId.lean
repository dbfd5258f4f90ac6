import WordMachine.Word

/-!
Ids of modules as programs hold them: a place in the table of images, or in the table of devices
with the top bit set. Places past the fifteen bits left for them wrap.
-/

namespace WordMachine

structure ModuleId where
  word : Word
  deriving DecidableEq, Repr

namespace ModuleId

/-- The bit that tells devices from images. -/
def deviceBit : Nat := 0x8000

/-- The id of the image at a place in the table. -/
def image (index : Nat) : ModuleId := ⟨BitVec.ofNat 16 (index % deviceBit)⟩

/-- The id of the device at a place in the table. -/
def device (index : Nat) : ModuleId := ⟨BitVec.ofNat 16 (index % deviceBit + deviceBit)⟩

def isDevice (id : ModuleId) : Bool := decide (deviceBit ≤ id.word.toNat)

def index (id : ModuleId) : Nat := id.word.toNat % deviceBit

/-- The id as diagnostics write it. -/
def text (id : ModuleId) : String :=
  (if id.isDevice then "system#" else "module#") ++ toString id.index

theorem index_image (i : Nat) : (image i).index = i % deviceBit := by
  simp only [index, image, deviceBit, BitVec.toNat_ofNat]
  omega

theorem index_device (i : Nat) : (device i).index = i % deviceBit := by
  simp only [index, device, deviceBit, BitVec.toNat_ofNat]
  omega

theorem image_eq_image_iff {i j : Nat} : image i = image j ↔ i % deviceBit = j % deviceBit := by
  constructor
  · intro h
    rw [← index_image, ← index_image, h]
  · intro h
    rw [image, image, h]

theorem isDevice_image (i : Nat) : (image i).isDevice = false := by
  simp only [isDevice, image, deviceBit, BitVec.toNat_ofNat, decide_eq_false_iff_not]
  omega

theorem isDevice_device (i : Nat) : (device i).isDevice = true := by
  simp only [isDevice, device, deviceBit, BitVec.toNat_ofNat, decide_eq_true_eq]
  omega

end ModuleId

end WordMachine
