import Stuos.Elf.Instantiate
import Stuos.Fs.Fat.Integrity

/-!
# Programs on a FAT volume

An executable that is a file of a well-formed volume.  Its `read_file` gives the bytes of the file
whenever it returns, so that the image of the program is that of the file.

* `readsFile_fatExe`: what `instantiate_ELF` relies on holds of FAT's `read_file`.
* `fat_image`: the image of a program on the disk.
-/

namespace Stuos.Elf

open Stuos.Lib Stuos.Memory

variable {vol : Fs.Fat.Fat16Volume} {disk : Mem} {ino : Nat} {stat : Fs.Fat.Stat}

/-- The file `ino` of a volume as an executable; `halted` is what is in the buffer when `read_file`
halts. -/
def fatExe (vol : Fs.Fat.Fat16Volume) (disk : Mem) (ino : Nat) (halted : Nat → Nat → List UInt8) :
    Exe := fun offset numBytes =>
  match Fs.Fat.readFile vol disk ino offset numBytes with
  | .ok bytes => ⟨bytes, some bytes.length⟩
  | .error _ => ⟨halted offset numBytes, none⟩

/-- The bytes of a file. -/
def fatFile (vol : Fs.Fat.Fat16Volume) (disk : Mem) (ino size : Nat) : List UInt8 :=
  (Fs.Fat.nodeBytes vol (Fs.Fat.view vol disk) ino).read 0 size

/-- **FAT's `read_file`** gives the bytes of the file whenever it returns. -/
theorem readsFile_fatExe (hg : Fs.Fat.Geometry vol)
    (hwf : Fs.Fat.WellFormed vol (Fs.Fat.view vol disk))
    (hfit : Fs.Fat.Fitting vol (Fs.Fat.view vol disk))
    (he : Fs.Fat.IsNode (Fs.Fat.Entry vol (Fs.Fat.view vol disk)) ino)
    (hstat : Fs.Fat.statFile vol disk ino = .ok stat) (hreg : Fs.sIsreg stat.stMode = true)
    (halted : Nat → Nat → List UInt8) :
    ReadsFile (fatExe vol disk ino halted) (fatFile vol disk ino stat.stSize) := by
  intro offset n r hoff hn hret
  cases hread : Fs.Fat.readFile vol disk ino offset n with
  | error halt => simp [fatExe, hread] at hret
  | ok bytes =>
    have hnd := Fs.Fat.not_sIsdir_of_sIsreg hreg
    obtain ⟨hle, hlt⟩ := Fs.Fat.readFile_returns hg hwf he hstat hreg hoff hn hread
    have hslice := Fs.Fat.readFile_slice hg hwf.sound he hstat hnd
      (hfit.file hg hwf he hstat hnd) hle hlt
    obtain rfl := Except.ok.inj (hread.symm.trans hslice)
    simp only [fatExe, hread, Option.some.injEq] at hret ⊢
    rw [fatFile, Mem.take_drop_read _ n hle]
    exact ⟨rfl, hret.symm⟩

/-- **The image of a program on the disk** is that of its file. -/
theorem fat_image {s : Spaces} {header : ElfFile} {headers : List ElfProgramHeader}
    {argv envp : List (List UInt8)} {program : LoadedProgram} {m' : Machine}
    {halted : Nat → Nat → List UInt8} (hs : spaces.Reachable s) (hg : Fs.Fat.Geometry vol)
    (hwf : Fs.Fat.WellFormed vol (Fs.Fat.view vol disk))
    (hfit : Fs.Fat.Fitting vol (Fs.Fat.view vol disk))
    (he : Fs.Fat.IsNode (Fs.Fat.Entry vol (Fs.Fat.view vol disk)) ino)
    (hstat : Fs.Fat.statFile vol disk ino = .ok stat) (hreg : Fs.sIsreg stat.stMode = true)
    (hh : readHeader (fatExe vol disk ino halted) = .ok header)
    (hp : readProgramHeaders (fatExe vol disk ino halted) header = .ok headers)
    (hw : WellPlaced headers) (hargv : Fits argv) (henvp : Fits envp)
    (hok : instantiateElf s.machine (fatExe vol disk ino halted) argv envp = .ok (program, m')) :
    ImageCorrect (fatFile vol disk ino stat.stSize) headers argv envp s.machine program m' := by
  have hread := readsFile_fatExe hg hwf hfit he hstat hreg halted
  obtain ⟨l₁, l₂, l₃, l₄, hstations⟩ := instantiateElf_stations (reachable_spaces_inv hs).accounted
    hread hh hp hw hargv henvp hok
  exact hstations.image

end Stuos.Elf
