import Granary.Lib.BitField
import Granary.Lib.Memory

/-!
# Watched addresses

`instrument.h` of the watchpoints client, for `WP_COUNTER_INDEX_WIDTH` of 16 and without inherited indices. A watched
address has a counter index in its high bits, and one bit that tells it apart from an address that is not watched.
-/

namespace Granary.Watchpoints

open Machine

section Build

/-! Everything is there for the kernel and for user space. -/

variable (kernel : Bool)

def numBitsPerAddr : Nat := 64

def numHighOrderBits : Nat := 16

def distinguishingBitOffset : Nat := numBitsPerAddr - numHighOrderBits

def distinguishingBit : Word := if kernel then 0 else 1

def maxCounterIndex : Word := 0x7fff

def maxNumWatchpoints : Nat := maxCounterIndex.toNat + 1

def clearIndexMask : Word := ~~~(~~~(0 : Word) <<< distinguishingBitOffset)

def userOrMask : Word := (1 : Word) <<< distinguishingBitOffset

def isValidAddress (addr : Word) : Bool := if kernel then (1 : Word) &&& addr >>> 47 ≠ 0 else 4095 < addr

def isWatchedAddress (ptr : Word) : Bool :=
  if kernel then
    let mask := userOrMask >>> 1 ||| userOrMask
    let maskedPtr := ptr &&& mask
    maskedPtr ≠ 0 ∧ mask ≠ maskedPtr
  else ptr ≠ 0 ∧ userOrMask = ptr &&& userOrMask

def unwatchedAddress (ptr : Word) : Word := if kernel then ptr ||| ~~~clearIndexMask else ptr &&& clearIndexMask

def counterIndexOf (ptr : Word) : Word := ptr >>> (distinguishingBitOffset + 1)

def withCounterIndex (ptr counterIndex : Word) : Word :=
  let counterIndex := counterIndex &&& maxCounterIndex
  let counterIndex := counterIndex <<< 1
  let counterIndex := counterIndex ||| distinguishingBit kernel
  let counterIndex := counterIndex <<< distinguishingBitOffset
  ptr &&& clearIndexMask ||| counterIndex

def taint (ptr counterIndex : Word) : Option Word :=
  if !isValidAddress kernel ptr then some ptr
  else
    let ptr := withCounterIndex kernel ptr counterIndex
    if isWatchedAddress kernel ptr then some ptr else none

/-- The address belongs to the kernel, or to user space: the high 17 bits are the same. -/
def IsCanonical (ptr : Word) : Prop := BitField.get 47 17 ptr = if kernel then BitVec.allOnes 17 else 0

instance (ptr : Word) : Decidable (IsCanonical kernel ptr) := inferInstanceAs (Decidable (_ = _))

end Build

/-! ## `rcudbg` -/

abbrev RcudbgCounterIndex := BitVec 16

namespace RcudbgCounterIndex

def setAssignLocationId (id : BitVec 14) (index : RcudbgCounterIndex) : RcudbgCounterIndex := BitField.put 0 id index

def setReadSectionId (id : BitVec 14) (index : RcudbgCounterIndex) : RcudbgCounterIndex := BitField.put 0 id index

def setIsDeref (b : Bool) (index : RcudbgCounterIndex) : RcudbgCounterIndex := BitField.put 14 (BitVec.ofBool b) index

def asUint (index : RcudbgCounterIndex) : Word := index.setWidth 64

end RcudbgCounterIndex

abbrev RcudbgWatchedAddress := BitVec 64

namespace RcudbgWatchedAddress

def shadowOffset (addr : RcudbgWatchedAddress) : BitVec 16 := BitField.get 3 16 addr

def assignLocationId (addr : RcudbgWatchedAddress) : BitVec 14 := BitField.get 49 14 addr

def readSectionId (addr : RcudbgWatchedAddress) : BitVec 14 := BitField.get 49 14 addr

def isDeref (addr : RcudbgWatchedAddress) : Bool := BitField.get 63 1 addr = 1

end RcudbgWatchedAddress

end Granary.Watchpoints
