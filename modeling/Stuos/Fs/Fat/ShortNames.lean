import Mathlib.Data.Fintype.Basic
import Stuos.Fs.Fat.Integrity

/-!
# Short names

`create_inode` makes the short name of a new entry from a counter that is kept in memory only.
It starts again at 0 with every boot and comes round after `26 ^ 3` names, and nobody looks
whether the name is taken.

* `booted`: the calls on a volume, and the reboots in between.
* `NamesUnique.step`: a step keeps the names of a directory apart if a new entry has a name of its
  own.
* `short_names_unique`: the names stay apart in every run of safe calls whose new names are not
  taken.
-/

namespace Stuos.Fs.Fat

open Stuos.Lib Fat16DirectoryEntry

variable {vol : Fat16Volume} {v v' : View}

/-- A call, or a reboot. -/
inductive BootOp
  | call (op : FatOp)
  | reboot

/-- The volume over several boots: the disk stays, the counter starts again. -/
def booted (vol : Fat16Volume) : Lts FatState BootOp where
  init _ := True
  step s op s' := match op with
    | .call op => op.exec vol s = .ok s'
    | .reboot => s' = { s with createIdx := 0 }

/-- No two entries of one directory have the same short name. -/
def NamesUnique (vol : Fat16Volume) (v : View) : Prop :=
  ∀ d j k, Entry vol v d j → Entry vol v d k → j ≠ k →
    (record vol v d j).filename ≠ (record vol v d k).filename

/-- The short name of the next entry is not taken in the directory it is put into. -/
def NameFree (vol : Fat16Volume) (s : FatState) : FatOp → Prop
  | .createInode parent _ _ =>
    ∀ k, Entry vol (view vol s.disk) (directoryOf vol (view vol s.disk) parent) k →
      (record vol (view vol s.disk) (directoryOf vol (view vol s.disk) parent) k).filename ≠
        shortFileName s.createIdx
  | .writeFile _ _ _ => True
  | .ftruncate _ _ => True

/-- A safe call with a free name; a reboot can always happen. -/
def Naming (vol : Fat16Volume) (s : FatState) : BootOp → Prop
  | .call op => Safe vol s op ∧ NameFree vol s op
  | .reboot => True

/-- **A step keeps the names apart**: the old entries keep theirs, and those of the new entry's
directory have other names than it has. -/
theorem NamesUnique.step (h : NamesUnique vol v) (hk : Kept vol v v' (Entry vol v)) (e₀ : Nat × Nat)
    (hentry : ∀ d k, Entry vol v' d k → Entry vol v d k ∨ (d, k) = e₀ ∧
      ∀ j, Entry vol v d j → (record vol v d j).filename ≠ (record vol v' d k).filename) :
    NamesUnique vol v' := by
  have hold : ∀ {d k}, Entry vol v d k → (record vol v' d k).filename = (record vol v d k).filename :=
    fun he => (hk.name _ _ he).filename
  intro d j k hj hk' hne
  rcases hentry d j hj with hj | ⟨hj, hnew⟩
  · rcases hentry d k hk' with hk' | ⟨-, hnew⟩
    · rw [hold hj, hold hk']
      exact h d j k hj hk' hne
    · rw [hold hj]
      exact hnew j hj
  · rcases hentry d k hk' with hk' | ⟨hk', -⟩
    · rw [hold hk']
      exact (hnew k hk').symm
    · exact absurd (Prod.mk.inj (hj.trans hk'.symm)).2 hne

theorem NewEntry.filename {createIdx newInodeType : Nat} {r : Fat16DirectoryEntry}
    (h : NewEntry vol v createIdx newInodeType r) : r.filename = shortFileName createIdx := by
  obtain ⟨attributes, c, size, -, -, rfl⟩ := h
  exact filename_ofFields _ _ _ _

/-- **A call** with a free name. -/
theorem exec_namesUnique (hg : Geometry vol) {s s' : FatState} {op : FatOp}
    (hwf : WellFormed vol (view vol s.disk)) (hunique : NamesUnique vol (view vol s.disk))
    (hsafe : Safe vol s op) (hfree : NameFree vol s op) (h : op.exec vol s = .ok s') :
    NamesUnique vol (view vol s'.disk) := by
  have hk := (exec_kept hg hwf hsafe h).2
  cases op with
  | createInode parent newInodeType name =>
    obtain ⟨-, -, -, v₂, n, hnew, hentry⟩ := createInode_adds hg hwf hsafe h
    refine hunique.step hk (directoryOf vol (view vol s.disk) parent, n) fun a b he => ?_
    rcases hentry a b he with he | heq
    · exact .inl he
    · refine .inr ⟨heq, fun j hj => ?_⟩
      cases heq
      rw [hnew.filename]
      exact hfree j hj
  | writeFile ino offset input =>
    have h := FatOp.exec_writeFile vol h
    obtain ⟨r, hc, hfile, hname, -⟩ := writeFile_changed hg hwf.sound hsafe.1 h
    obtain ⟨-, -, hcomplete⟩ := hc.intact hwf hfile hname hsafe.2
    exact hunique.step hk (0, 0) fun a b he => .inl (hcomplete.entry he)
  | ftruncate ino len =>
    have h := FatOp.exec_ftruncate vol h
    obtain ⟨r, hc, hfile, hname, -⟩ := ftruncate_changed hg hwf.sound hsafe.1 h
    obtain ⟨-, -, hcomplete⟩ := hc.intact hwf hfile hname hsafe.2
    exact hunique.step hk (0, 0) fun a b he => .inl (hcomplete.entry he)

/-- **Short names stay apart** in every run of safe calls and reboots, as long as the name that the
counter stands for is not taken in the directory of the new entry. -/
theorem short_names_unique (hg : Geometry vol) {s s' : FatState} {ops : List BootOp}
    (hwf : WellFormed vol (view vol s.disk)) (hunique : NamesUnique vol (view vol s.disk))
    (hrun : (booted vol).Run (Naming vol) s ops s') : NamesUnique vol (view vol s'.disk) := by
  have hinv : WellFormed vol (view vol s'.disk) ∧ NamesUnique vol (view vol s'.disk) := by
    refine hrun.invariant (P := fun _ s => WellFormed vol (view vol s.disk) ∧
      NamesUnique vol (view vol s.disk)) ?_ ⟨hwf, hunique⟩
    intro _ s₁ op s₂ h hop hstep
    cases op with
    | call op =>
      exact ⟨(exec_kept hg h.1 hop.1 hstep).1, exec_namesUnique hg h.1 h.2 hop.1 hop.2 hstep⟩
    | reboot =>
      cases hstep
      exact h
  exact hinv.2

/-! ### Two boots -/

theorem twoFatsDisk_namesUnique : NamesUnique twoFats (view twoFats twoFatsDisk.disk) := by
  have hnames : ∀ j < 2, ∀ k < 2, j ≠ k →
      (record twoFats (view twoFats twoFatsDisk.disk) 0 j).filename ≠
        (record twoFats (view twoFats twoFatsDisk.disk) 0 k).filename := by
    decide +kernel
  intro d j k hj hk hne
  obtain ⟨rfl, hj2⟩ := twoFatsDisk_entry hj
  exact hnames j hj2 k (twoFatsDisk_entry hk).2 hne

/-- A file `x` beside `A` and `B`. -/
theorem short_names_unique_one_file :
    ∃ s', (booted twoFats).Run (Naming twoFats) twoFatsDisk
        [.call (.createInode 1 sIfreg [120]), .reboot] s' ∧
      NamesUnique twoFats (view twoFats s'.disk) := by
  have hfree : NameFree twoFats twoFatsDisk (.createInode 1 sIfreg [120]) := by
    have hnames : ∀ k < 2, (record twoFats (view twoFats twoFatsDisk.disk) 0 k).filename ≠
        shortFileName 0 := by
      decide +kernel
    exact fun k hk => hnames k (twoFatsDisk_entry hk).2
  have hok : (FatOp.exec twoFats twoFatsDisk (.createInode 1 sIfreg [120])).isOk = true := by
    decide +kernel
  obtain ⟨s', hexec⟩ := exists_of_isOk hok
  have hrun : (booted twoFats).Run (Naming twoFats) twoFatsDisk
      [.call (.createInode 1 sIfreg [120]), .reboot] { s' with createIdx := 0 } :=
    .snoc (.snoc (.nil _) ⟨.inl rfl, hfree⟩ hexec) trivial rfl
  exact ⟨_, hrun, short_names_unique twoFats_geometry twoFatsDisk_wellFormed
    twoFatsDisk_namesUnique hrun⟩

/-- Two files are created in the root directory, with a reboot in between: both are
`READ_LFNAAA`.  Without a reboot it is the one after `26 ^ 3` others. -/
theorem short_name_twice_after_reboot :
    WellFormed twoFats (view twoFats twoFatsDisk.disk) ∧
      NamesUnique twoFats (view twoFats twoFatsDisk.disk) ∧
      (∃ s', (booted twoFats).Run (fun _ _ => True) twoFatsDisk
          [.call (.createInode 1 sIfreg [120]), .reboot, .call (.createInode 1 sIfreg [121])] s' ∧
        ¬ NamesUnique twoFats (view twoFats s'.disk)) ∧
      shortFileName (26 ^ 3) = shortFileName 0 := by
  refine ⟨twoFatsDisk_wellFormed, twoFatsDisk_namesUnique, ?_, by decide⟩
  have hcreate : (do
      let s₁ ← createInode twoFats twoFatsDisk 1 sIfreg [120]
      let s₂ ← createInode twoFats { s₁ with createIdx := 0 } 1 sIfreg [121]
      return decide (∀ j : Fin 6, (record twoFats (view twoFats s₂.disk) 0 j).firstByte ≠ 0) &&
        decide (record twoFats (view twoFats s₂.disk) 0 3).Names &&
        decide (record twoFats (view twoFats s₂.disk) 0 5).Names &&
        decide ((record twoFats (view twoFats s₂.disk) 0 3).filename =
          (record twoFats (view twoFats s₂.disk) 0 5).filename) : Except Halt Bool) = .ok true := by
    decide +kernel
  simp only [bind_eq_ok, pure_eq_ok, Except.ok.injEq, Bool.and_eq_true, decide_eq_true_eq] at hcreate
  obtain ⟨s₁, h₁, s₂, h₂, ⟨⟨hbefore, h3⟩, h5⟩, heq⟩ := hcreate
  refine ⟨s₂, .snoc (.snoc (.snoc (.nil _) trivial h₁) trivial rfl) trivial h₂, fun hunique => ?_⟩
  have hlisted : ∀ k ≤ 5, (record twoFats (view twoFats s₂.disk) 0 k).Names →
      Entry twoFats (view twoFats s₂.disk) 0 k := by
    intro k hk hnames
    refine ⟨.root, ?_, fun j hj => hbefore ⟨j, by omega⟩, hnames⟩
    show k * 32 + 32 < 512
    omega
  exact hunique 0 3 5 (hlisted 3 (by decide) h3) (hlisted 5 (by decide) h5) (by decide) heq

end Stuos.Fs.Fat
