import CrystaxNdk.Lib.Words

/-!
# The platform level of an ABI

The part of `setup-abi.mk` that raises `TARGET_PLATFORM` to the first level an ABI has, and the loop
over the ABIs in `setup-app.mk` that includes it. The levels below are replaced one after the other
in the text of the variable. What `setup-toolchain.mk` does with the variable is not looked at here;
it does not set it.
-/

namespace CrystaxNdk.Build

open Lib

def platformText (level : List Char) : List Char := "android-".toList ++ level

def android (n : Nat) : List Char := platformText (Nat.toDigits 10 n)

/-! ## ABIs -/

def armeabiV7a : Word := Word.ofString "armeabi-v7a" (by simp [isBlank])

def armeabiV7aHard : Word := Word.ofString "armeabi-v7a-hard" (by simp [isBlank])

def x86 : Word := Word.ofString "x86" (by simp [isBlank])

def mips : Word := Word.ofString "mips" (by simp [isBlank])

def arm64V8a : Word := Word.ofString "arm64-v8a" (by simp [isBlank])

def x8664 : Word := Word.ofString "x86_64" (by simp [isBlank])

def mips64 : Word := Word.ofString "mips64" (by simp [isBlank])

def ndkKnownDeviceAbi64s : List Word := [arm64V8a, x8664, mips64]

def ndkKnownDeviceAbi32s : List Word := [armeabiV7a, x86, mips]

def ndkKnownAbis : List Word := armeabiV7aHard :: (ndkKnownDeviceAbi64s ++ ndkKnownDeviceAbi32s)

def percentX86Mips : List Word :=
  [Word.ofString "%x86" (by simp [isBlank]), Word.ofString "%mips" (by simp [isBlank])]

/-! ## Raising the level -/

def raisePlatform (levels : List Nat) (minimum : Nat) (targetPlatform : List Char) : List Char :=
  levels.foldl (fun platform plat => substitute (android plat) (android minimum) platform)
    targetPlatform

/-- The levels that are replaced by `android-9`. -/
def levelsBelow9 : List Nat := [3, 4, 5, 8]

/-- The levels that are replaced by `android-21`. -/
def levelsBelow21 : List Nat := [3, 4, 5, 8, 9, 10, 11, 12, 13, 14, 15, 16, 17, 18, 19, 20]

/-- The values of `TARGET_PLATFORM` that one pass through the file leaves behind. -/
structure AbiPass where
  /-- The one that is set up for. -/
  used : List Char
  /-- The one that is there at the end. -/
  left : List Char
deriving DecidableEq

def setupAbi (targetArchAbi : Word) (targetPlatform : List Char) : AbiPass :=
  let targetPlatformSaved := targetPlatform
  let targetPlatform :=
    if Word.filter percentX86Mips [targetArchAbi] ≠ [] then
      raisePlatform levelsBelow9 9 targetPlatform
    else targetPlatform
  let targetPlatform :=
    if Word.filter ndkKnownDeviceAbi64s [targetArchAbi] ≠ [] then
      raisePlatform levelsBelow21 21 targetPlatform
    else targetPlatform
  { used := targetPlatform, left := targetPlatformSaved }

/-- The last loop of `setup-app.mk`: what every ABI is set up for, and what is left at the end. -/
def setupApp (ndkAppAbi : List Word) (targetPlatform : List Char) :
    List (Word × List Char) × List Char :=
  ndkAppAbi.foldl
    (fun st abi =>
      let pass := setupAbi abi st.2
      (st.1 ++ [(abi, pass.used)], pass.left))
    ([], targetPlatform)

end CrystaxNdk.Build
