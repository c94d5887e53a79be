import Stuos.Fs.Fat.Volume

/-!
# Directory entries

`fs_fat.c`: the packed structs `Fat16DirectoryEntry` and `Fat16LFNEntry`, which are
two readings of the same 32 bytes, the file mode they store, the inode numbers, and
the access to the entry of a node in its parent directory.

A long-name entry holds thirteen 16-bit characters at the places `charPlaces`.
-/

namespace Stuos.Fs.Fat

open Stuos.Lib

/-- `struct Fat16DirectoryEntry`, or `struct Fat16LFNEntry`: 32 packed bytes. -/
abbrev Fat16DirectoryEntry := Fin 32 → UInt8

namespace Fat16DirectoryEntry

def ofBytes (bs : List UInt8) : Fat16DirectoryEntry := fun i => bs.getD i.val 0

def toBytes (e : Fat16DirectoryEntry) : List UInt8 := List.ofFn e

@[simp] theorem length_toBytes (e : Fat16DirectoryEntry) : e.toBytes.length = 32 := by
  simp [toBytes]

theorem getD_toBytes (e : Fat16DirectoryEntry) {i : Nat} (h : i < 32) :
    e.toBytes.getD i 0 = e ⟨i, h⟩ := by
  rw [toBytes, List.getD_eq_getElem _ _ (by rw [List.length_ofFn]; exact h), List.getElem_ofFn]

@[simp] theorem ofBytes_toBytes (e : Fat16DirectoryEntry) : ofBytes e.toBytes = e := by
  funext i
  exact e.getD_toBytes i.isLt

/-! ### Fields -/

/-- `filename[i]`. -/
def filename (e : Fat16DirectoryEntry) (i : Fin 11) : UInt8 := e (i.castLE (by decide))

/-- `filename[0]`, which also marks free and deleted entries. -/
def firstByte (e : Fat16DirectoryEntry) : UInt8 := e.filename 0

def attributes (e : Fat16DirectoryEntry) : UInt8 := e 11

def zero (e : Fat16DirectoryEntry) : Nat := (e 20).toNat + 256 * (e 21).toNat

def clusterNumber (e : Fat16DirectoryEntry) : Nat := (e 26).toNat + 256 * (e 27).toNat

def fileSizeBytes (e : Fat16DirectoryEntry) : Nat :=
  (e 28).toNat + 256 * ((e 29).toNat + 256 * ((e 30).toNat + 256 * (e 31).toNat))

def withClusterNumber (e : Fat16DirectoryEntry) (n : Nat) : Fat16DirectoryEntry := fun i =>
  if i = 26 then UInt8.ofNat n else if i = 27 then UInt8.ofNat (n / 256) else e i

def withFileSizeBytes (e : Fat16DirectoryEntry) (n : Nat) : Fat16DirectoryEntry := fun i =>
  if 28 ≤ i.val then UInt8.ofNat (n / 256 ^ (i.val - 28)) else e i

@[simp] theorem clusterNumber_withFileSizeBytes (e : Fat16DirectoryEntry) (n : Nat) :
    (e.withFileSizeBytes n).clusterNumber = e.clusterNumber := rfl

theorem fileSizeBytes_withFileSizeBytes (e : Fat16DirectoryEntry) {n : Nat} (h : n < 2 ^ 32) :
    (e.withFileSizeBytes n).fileSizeBytes = n := by
  have hb : ∀ k, (UInt8.ofNat k).toNat = k % 256 := fun k => UInt8.toNat_ofNat
  have h0 : (e.withFileSizeBytes n) 28 = UInt8.ofNat (n / 256 ^ 0) := rfl
  have h1 : (e.withFileSizeBytes n) 29 = UInt8.ofNat (n / 256 ^ 1) := rfl
  have h2 : (e.withFileSizeBytes n) 30 = UInt8.ofNat (n / 256 ^ 2) := rfl
  have h3 : (e.withFileSizeBytes n) 31 = UInt8.ofNat (n / 256 ^ 3) := rfl
  rw [fileSizeBytes, h0, h1, h2, h3, hb, hb, hb, hb]
  omega

theorem clusterNumber_withClusterNumber (e : Fat16DirectoryEntry) {n : Nat} (h : n < 2 ^ 16) :
    (e.withClusterNumber n).clusterNumber = n := by
  have hb : ∀ k, (UInt8.ofNat k).toNat = k % 256 := fun k => UInt8.toNat_ofNat
  have h0 : (e.withClusterNumber n) 26 = UInt8.ofNat n := rfl
  have h1 : (e.withClusterNumber n) 27 = UInt8.ofNat (n / 256) := rfl
  rw [clusterNumber, h0, h1, hb, hb]
  omega

/-- The entries differ at most in the first cluster and the size. -/
def SameName (e e' : Fat16DirectoryEntry) : Prop := ∀ i : Fin 32, i.val < 26 → e' i = e i

theorem SameName.trans {e e' e'' : Fat16DirectoryEntry} (h : SameName e e')
    (h' : SameName e' e'') : SameName e e'' := fun i hi => (h' i hi).trans (h i hi)

theorem sameName_withClusterNumber (e : Fat16DirectoryEntry) (n : Nat) :
    SameName e (e.withClusterNumber n) := by
  intro i hi
  have h26 : ¬ i = 26 := by rintro rfl; omega
  have h27 : ¬ i = 27 := by rintro rfl; omega
  rw [withClusterNumber, if_neg h26, if_neg h27]

theorem sameName_withFileSizeBytes (e : Fat16DirectoryEntry) (n : Nat) :
    SameName e (e.withFileSizeBytes n) := by
  intro i hi
  rw [withFileSizeBytes, if_neg (by omega)]

/-- An entry with the fields the source fills in; all others are zero. -/
def ofFields (filename : Fin 11 → UInt8) (attributes : UInt8) (clusterNumber fileSizeBytes : Nat) :
    Fat16DirectoryEntry :=
  withFileSizeBytes (withClusterNumber
    (fun i => if h : i.val < 11 then filename ⟨i.val, h⟩ else if i.val = 11 then attributes else 0)
    clusterNumber) fileSizeBytes

theorem clusterNumber_ofFields (filename : Fin 11 → UInt8) (attributes : UInt8) {c : Nat}
    (size : Nat) (h : c < 2 ^ 16) : (ofFields filename attributes c size).clusterNumber = c := by
  rw [ofFields, clusterNumber_withFileSizeBytes]
  exact clusterNumber_withClusterNumber _ h

/-! ### Long names -/

/-- Where the thirteen characters of a long-name entry start. -/
def charPlaces : List (Fin 31) := [1, 3, 5, 7, 9, 14, 16, 18, 20, 22, 24, 28, 30]

/-- A character of a long name, 16 bits. -/
def charAt (e : Fat16DirectoryEntry) (place : Fin 31) : Nat :=
  (e place.castSucc).toNat + 256 * (e place.succ).toNat

def unicodeName (e : Fat16DirectoryEntry) : List Nat := charPlaces.map e.charAt

/-- The low six bits of the first byte. -/
def sequenceNumber (e : Fat16DirectoryEntry) : Nat := (e 0).toNat % 64

/-- The bit above them. -/
def isLastInSequence (e : Fat16DirectoryEntry) : Bool := (e 0).toNat / 64 % 2 == 1

def zeroA (e : Fat16DirectoryEntry) : UInt8 := e 12

/-- `checksum` of a long-name entry. -/
def lfnChecksum (e : Fat16DirectoryEntry) : UInt8 := e 13

def zeroB (e : Fat16DirectoryEntry) : Nat := (e 26).toNat + 256 * (e 27).toNat

end Fat16DirectoryEntry

/-! ### Attributes and modes -/

def fileAttributesRo : UInt8 := 0x1
def fileAttributesHidden : UInt8 := 0x2
def fileAttributesSystem : UInt8 := 0x4
def fileAttributesVolumeid : UInt8 := 0x8
def fileAttributesDirectory : UInt8 := 0x10

def fileAttributesLfn : UInt8 :=
  fileAttributesRo ||| fileAttributesHidden ||| fileAttributesSystem ||| fileAttributesVolumeid

def readFatMode (attributes : UInt8) : Except Halt Nat := do
  ensure (¬ (attributes &&& fileAttributesRo ≠ 0 ∨ attributes &&& fileAttributesHidden ≠ 0 ∨
    attributes &&& fileAttributesSystem ≠ 0 ∨ attributes &&& fileAttributesVolumeid ≠ 0)) .hcf
  return if attributes &&& fileAttributesDirectory ≠ 0 then sIfdir else sIfreg

def createFatMode (mode : Nat) : Except Halt UInt8 :=
  if sIsdir mode then .ok fileAttributesDirectory
  else if sIsreg mode then .ok 0
  else .error .hcf

/-- The checksum of a short name that its long-name entries carry. -/
def checksum (data : Fin 11 → UInt8) : UInt8 :=
  (List.ofFn data).foldl
    (fun (val c : UInt8) => (if val &&& 1 ≠ 0 then (0x80 : UInt8) else 0) + (val >>> 1) + c) 0

/-! ### Inode numbers -/

/-- `PARENT_IS_ROOT_DIR`. -/
def parentIsRootDir : Nat := 0

/-- `I_AM_ROOT_DIR`. -/
def iAmRootDir : Nat := 1

/-- The first 16 bits: the cluster that holds the parent directory. -/
def getParentClusterNum (inodeNum : Nat) : Nat := inodeNum % 2 ^ 16

/-- The second 16 bits: the directory entry number in the parent. -/
def getDirentIndexInParent (inodeNum : Nat) : Nat := inodeNum / 2 ^ 16 % 2 ^ 16

/-- `make_inode`: the arguments are cut to 16 bits, and the shift is one on `int`. -/
def makeInode (parentClusterNumber parentDirentNumber : Nat) : Except Halt Nat := do
  let parentClusterNumber := parentClusterNumber % 2 ^ 16
  let parentDirentNumber := parentDirentNumber % 2 ^ 16
  ensure (¬ (parentClusterNumber = iAmRootDir ∧ parentDirentNumber ≠ 0)) .hcf
  return intU64 (parentClusterNumber ||| parentDirentNumber * 2 ^ 16)

/-! ### The entry of a node in its parent -/

section

variable (vol : Fat16Volume) (disk : Mem)

/-- Bytes of a directory: `PARENT_IS_ROOT_DIR` stands for the root directory. -/
def readFromDirectory (clusterNumber offset numBytes : Nat) : Except Halt (List UInt8) :=
  if clusterNumber = parentIsRootDir then readFromRootDir vol disk offset numBytes
  else readFromClusterChain vol disk clusterNumber offset numBytes

def writeToDirectory (clusterNumber offset : Nat) (inputBuf : List UInt8) : Except Halt Mem :=
  if clusterNumber = parentIsRootDir then writeToRootDir vol disk offset inputBuf
  else writeToClusterChain vol disk clusterNumber offset inputBuf

def readParentDirent (inodeNum : Nat) : Except Halt Fat16DirectoryEntry := do
  ensure (getParentClusterNum inodeNum ≠ iAmRootDir) .hcf
  let bytes ← readFromDirectory vol disk (getParentClusterNum inodeNum)
    (getDirentIndexInParent inodeNum * 32) 32
  return .ofBytes bytes

def writeParentDirent (inodeNum : Nat) (value : Fat16DirectoryEntry) : Except Halt Mem := do
  ensure (getParentClusterNum inodeNum ≠ iAmRootDir) .hcf
  writeToDirectory vol disk (getParentClusterNum inodeNum) (getDirentIndexInParent inodeNum * 32)
    value.toBytes

end

end Stuos.Fs.Fat
