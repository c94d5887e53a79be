import Mathlib.Algebra.Order.Ring.Int
import Mathlib.Logic.Basic

/-!
# Nodes and modes

What `fs.h` and `stat.h` share between the filesystems: the identity of a node
under its mount, and the file type bits of a mode.
-/

namespace Stuos.Fs

/-- `struct VNodeData`: the inode number, unique under its mount, and the mount. -/
structure VNodeData where
  inode : Nat
  mountId : Nat
  deriving DecidableEq, Repr

/-- All file type bits. -/
def sIfmt : Nat := 0o170000
def sIfdir : Nat := 0o040000
def sIfblk : Nat := 0o060000
def sIfreg : Nat := 0o100000

/-- `S_ISDIR`. -/
def sIsdir (m : Nat) : Bool := m &&& sIfmt == sIfdir

/-- `S_ISREG`. -/
def sIsreg (m : Nat) : Bool := m &&& sIfmt == sIfreg

end Stuos.Fs
