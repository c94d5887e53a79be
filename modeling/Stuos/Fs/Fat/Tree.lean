import Mathlib.Logic.Equiv.Basic
import Stuos.Fs.Fat.Directories

/-!
# The tree of a volume

The entries of a volume are the listed entries of the directories one reaches from the
root.  Each owns a chain; `WellFormed` says that these are chains of the table and
share no cluster.

While a call runs, a chain may already be allocated that no entry names yet.  `Sound`
is well-formedness for a fixed set of entries and one such spare chain.  Every step of
a call is a `Touched` step: one chain grows, and only its clusters and the new ones get
other bytes.

* `Grown.chain_eq`, `Touched.content_eq`, `Touched.dirBytes_eq`: what is apart from the
  chain that grows stays as it is.
* `Sound.step`: a step keeps the chains apart.
-/

namespace Stuos.Fs.Fat

open Stuos.Lib

/-! ### Entries -/

namespace Fat16DirectoryEntry

/-- An entry that names a file or a directory: no part of a long name, not deleted, and
not one of the links `.` and `..`. -/
def Names (r : Fat16DirectoryEntry) : Prop :=
  r.attributes ≠ fileAttributesLfn ∧ r.firstByte ≠ 0xE5 ∧ r.firstByte ≠ 0x2E

def IsDirectory (r : Fat16DirectoryEntry) : Prop := r.attributes &&& fileAttributesDirectory ≠ 0

instance (r : Fat16DirectoryEntry) : Decidable r.Names := inferInstanceAs (Decidable (_ ∧ _))

instance (r : Fat16DirectoryEntry) : Decidable r.IsDirectory := inferInstanceAs (Decidable (_ ≠ _))

end Fat16DirectoryEntry

section

variable (vol : Fat16Volume) (v : View)

/-- The directory `d` lists a file or directory at index `k`, before its end. -/
structure Listed (d k : Nat) : Prop where
  inDir : InDir vol v d (k * 32 + 32)
  before : ∀ j ≤ k, (record vol v d j).firstByte ≠ 0
  names : (record vol v d k).Names

/-- The directories one reaches from the root. -/
inductive Reach : Nat → Prop
  | root : Reach parentIsRootDir
  | sub {d k : Nat} : Reach d → Listed vol v d k → (record vol v d k).IsDirectory →
      Reach (record vol v d k).clusterNumber

/-- The entries of the volume. -/
structure Entry (d k : Nat) : Prop where
  reach : Reach vol v d
  listed : Listed vol v d k

/-- The clusters of an entry. -/
def chainOf (d k : Nat) : List Nat := v.chain (record vol v d k).clusterNumber

/-- Every file and directory has its own chain of clusters. -/
structure WellFormed : Prop where
  chain : ∀ d k, Entry vol v d k → IsChain vol v (chainOf vol v d k)
  disjoint : ∀ d k d' k', Entry vol v d k → Entry vol v d' k' → (d, k) ≠ (d', k') →
    (chainOf vol v d k).Disjoint (chainOf vol v d' k')
  directory : ∀ d k, Entry vol v d k → (record vol v d k).IsDirectory →
    isInvalidClusterNum (record vol v d k).clusterNumber = false

end

variable {vol : Fat16Volume} {v v' : View} {L ext : List Nat} {c d k : Nat}

theorem WellFormed.of_one_chain (hL : IsChain vol v L) (hchain : chainOf vol v d k = L)
    (hdir : (record vol v d k).IsDirectory →
      isInvalidClusterNum (record vol v d k).clusterNumber = false)
    (hentry : ∀ a b, Entry vol v a b → (a, b) = (d, k) ∨
      chainOf vol v a b = [] ∧ ¬ (record vol v a b).IsDirectory) : WellFormed vol v := by
  refine ⟨?_, ?_, ?_⟩
  · intro a b he
    rcases hentry a b he with heq | ⟨hnil, -⟩
    · cases heq
      rw [hchain]
      exact hL
    · rw [hnil]
      exact .nil _ _
  · intro a b a' b' he he' hne
    rcases hentry a b he with heq | ⟨hnil, -⟩
    · rcases hentry a' b' he' with heq' | ⟨hnil, -⟩
      · exact absurd (heq.trans heq'.symm) hne
      · rw [hnil]
        exact List.disjoint_nil_right _
    · rw [hnil]
      exact List.disjoint_nil_left _
  · intro a b he hd
    rcases hentry a b he with heq | ⟨-, hnd⟩
    · cases heq
      exact hdir hd
    · exact absurd hd hnd

/-! ### Steps that touch one chain -/

/-- The chain `L` grows by `ext`, and no other cluster gets other bytes. -/
structure Touched (vol : Fat16Volume) (v v' : View) (L ext : List Nat) : Prop
    extends Grown vol v v' L ext where
  data : ∀ c, c ∉ L → c ∉ ext → v'.data c = v.data c

theorem Written.touched {pos : Nat} {input : List UInt8} (h : Written vol v v' L ext pos input) :
    Touched vol v v' L ext := ⟨h.toGrown, h.data⟩

theorem DirWritten.touched {off : Nat} {input : List UInt8}
    (h : DirWritten vol v v' d ext off input) : Touched vol v v' (v.chain d) ext :=
  ⟨h.grown, h.data⟩

theorem Allocated.touched {fresh : Nat} (h : Allocated vol v v' fresh) :
    Touched vol v v' [] [fresh] := by
  rw [h.eq]
  refine ⟨⟨⟨?_, ?_⟩, ?_, ?_⟩, fun _ _ _ => rfl⟩
  · intro c hc
    rw [List.nil_append, List.mem_singleton] at hc
    exact hc ▸ h.inRange
  · refine ⟨?_, trivial⟩
    rw [View.next, View.setFat_fat_self]
    rfl
  · intro c hc
    rw [List.mem_singleton] at hc
    exact hc ▸ h.free
  · intro c _ hc
    rw [List.mem_singleton] at hc
    exact View.setFat_fat_of_ne _ _ hc

theorem Grown.chain_eq_append (h : Grown vol v v' (v.chain c) ext)
    (hvalid : isInvalidClusterNum c = false) : v'.chain c = v.chain c ++ ext := by
  have hchain := h.chain
  rw [chain_eq_cons v hvalid, List.cons_append] at hchain ⊢
  exact hchain.chain_eq

/-- **Another chain is found as before.** -/
theorem Grown.chain_eq (h : Grown vol v v' L ext) (hc : IsChain vol v (v.chain c))
    (hdisj : (v.chain c).Disjoint L) : v'.chain c = v.chain c := by
  cases hvalid : isInvalidClusterNum c with
  | true => rw [chain_of_invalid v hvalid, chain_of_invalid v' hvalid]
  | false =>
    have hother := h.other hc (fun x hx hx' => hdisj hx hx')
    rw [chain_eq_cons v hvalid] at hother ⊢
    exact hother.chain_eq

/-- **Another chain has the same bytes.** -/
theorem Touched.content_eq (h : Touched vol v v' L ext) (hc : IsChain vol v (v.chain c))
    (hdisj : (v.chain c).Disjoint L) : content vol v' (v.chain c) = content vol v (v.chain c) := by
  apply joined_congr
  intro x hx j _
  rw [h.data x (fun hx' => hdisj hx hx') (fun hx' => h.not_mem hc hx' hx)]

theorem Touched.dirBytes_eq (h : Touched vol v v' L ext) (hd : IsDir vol v d)
    (hroot : d = parentIsRootDir → v'.root = v.root) (hdisj : (v.chain d).Disjoint L) :
    dirBytes vol v' d = dirBytes vol v d := by
  rw [dirBytes, dirBytes]
  split
  · exact hroot ‹_›
  · rw [h.chain_eq hd.isChain hdisj, h.content_eq hd.isChain hdisj]

/-! ### An entry is rewritten -/

section

variable {r : Fat16DirectoryEntry}

theorem DirWritten.record_self (h : DirWritten vol v v' d ext (k * 32) r.toBytes) :
    record vol v' d k = r := by
  funext i
  have hi := i.isLt
  have hlen := r.length_toBytes
  rw [record, h.bytes _ (.inr ⟨by omega, by omega⟩), Mem.write_of_mem _ _ (by omega) (by omega),
    Nat.add_sub_cancel_left, r.getD_toBytes hi]

theorem DirWritten.record_of_disjoint {off j : Nat} {input : List UInt8}
    (h : DirWritten vol v v' d ext off input) (hin : InDir vol v d (j * 32 + 32))
    (hj : j * 32 + 32 ≤ off ∨ off + input.length ≤ j * 32) :
    record vol v' d j = record vol v d j := by
  funext i
  have hi := i.isLt
  rw [record, h.bytes _ (.inl (hin.mono (by omega))), Mem.write, if_neg (by omega), record]

theorem DirWritten.record_of_ne {j : Nat} (h : DirWritten vol v v' d ext (k * 32) r.toBytes)
    (hin : InDir vol v d (j * 32 + 32)) (hj : j ≠ k) :
    record vol v' d j = record vol v d j := by
  have hlen := r.length_toBytes
  exact h.record_of_disjoint hin (by omega)

end

/-! ### The chains of a set of entries -/

/-- An entry, or nobody. -/
abbrev Owner := Option (Nat × Nat)

section

variable (vol v)

/-- The chain of an owner; the spare one belongs to nobody. -/
def ownerChain (spare : List Nat) : Owner → List Nat
  | none => spare
  | some (d, k) => chainOf vol v d k

def IsOwner (E : Nat → Nat → Prop) : Owner → Prop
  | none => True
  | some (d, k) => E d k

/-- The root, or a directory among the entries `E`. -/
def DirOf (E : Nat → Nat → Prop) (d : Nat) : Prop :=
  d = parentIsRootDir ∨
    ∃ p j, E p j ∧ (record vol v p j).IsDirectory ∧ (record vol v p j).clusterNumber = d

/-- The entries `E` and the spare chain own chains of their own. -/
structure Sound (E : Nat → Nat → Prop) (spare : List Nat) : Prop where
  chain : ∀ o, IsOwner E o → IsChain vol v (ownerChain vol v spare o)
  disjoint : ∀ o o', IsOwner E o → IsOwner E o' → o ≠ o' →
    (ownerChain vol v spare o).Disjoint (ownerChain vol v spare o')
  directory : ∀ d k, E d k → (record vol v d k).IsDirectory →
    isInvalidClusterNum (record vol v d k).clusterNumber = false
  inDir : ∀ d k, E d k → InDir vol v d (k * 32 + 32)
  parent : ∀ d k, E d k → DirOf vol v E d

end

/-- **Who owns a directory.** -/
theorem Reach.owner (h : Reach vol v d) : DirOf vol v (Entry vol v) d := by
  cases h with
  | root => exact .inl rfl
  | sub hd hl hdir => exact .inr ⟨_, _, ⟨hd, hl⟩, hdir, rfl⟩

theorem WellFormed.sound (h : WellFormed vol v) : Sound vol v (Entry vol v) [] where
  chain o ho := by
    cases o with
    | none => exact .nil vol v
    | some e => exact h.chain e.1 e.2 ho
  disjoint o o' ho ho' hne := by
    cases o with
    | none => exact List.disjoint_nil_left _
    | some e =>
      cases o' with
      | none => exact List.disjoint_nil_right _
      | some e' => exact h.disjoint e.1 e.2 e'.1 e'.2 ho ho' (fun he => hne (congrArg some he))
  directory := h.directory
  inDir _ _ he := he.listed.inDir
  parent _ _ he := he.reach.owner

namespace Sound

variable {E E' : Nat → Nat → Prop} {spare spare' : List Nat}

theorem chainOf (h : Sound vol v E spare) (he : E d k) : IsChain vol v (chainOf vol v d k) :=
  h.chain (some (d, k)) he

theorem spare_chain (h : Sound vol v E spare) : IsChain vol v spare := h.chain none trivial

/-- **A directory of the entries** can be read. -/
theorem isDir (h : Sound vol v E spare) (hd : DirOf vol v E d) : IsDir vol v d := by
  rcases hd with hd | ⟨p, j, hp, hdir, rfl⟩
  · exact .inl hd
  · exact .inr ⟨h.directory p j hp hdir, h.chainOf hp⟩

theorem dir_disjoint (h : Sound vol v E spare) (hd : DirOf vol v E d) {o : Owner}
    (ho : IsOwner E o) (hnot : ∀ p j, o = some (p, j) → (record vol v p j).IsDirectory →
      (record vol v p j).clusterNumber ≠ d) :
    (v.chain d).Disjoint (ownerChain vol v spare o) := by
  rcases hd with rfl | ⟨p, j, hp, hdir, rfl⟩
  · rw [chain_root]
    exact List.disjoint_nil_left _
  · exact h.disjoint (some (p, j)) o hp ho (fun heq => hnot p j heq.symm hdir rfl)

theorem dirs_disjoint (h : Sound vol v E spare) {d' : Nat} (hd : DirOf vol v E d)
    (hd' : DirOf vol v E d') (hne : d ≠ d') : (v.chain d).Disjoint (v.chain d') := by
  rcases hd' with rfl | ⟨p, j, hp, hdir, rfl⟩
  · rw [chain_root]
    exact List.disjoint_nil_right _
  · apply h.dir_disjoint hd (o := some (p, j)) hp
    intro p' j' heq _ hd'
    simp only [Option.some.injEq, Prod.mk.injEq] at heq
    obtain ⟨rfl, rfl⟩ := heq
    exact hne hd'.symm

/-- **A step keeps the chains apart.**  Every owner of the new state has no clusters, or
those of an owner of the old state, who may have got the new ones. -/
theorem step (h : Sound vol v E spare) (ht : Grown vol v v' L ext) (π : Owner → Owner)
    (hπ : Function.Injective π) (o₀ : Owner)
    (howner : ∀ o, IsOwner E' o → ownerChain vol v' spare' o = [] ∨ IsOwner E (π o) ∧
      (ownerChain vol v' spare' o = ownerChain vol v spare (π o) ∧
          (ownerChain vol v spare (π o)).Disjoint L ∨
        π o = o₀ ∧ ownerChain vol v spare (π o) = L ∧ ownerChain vol v' spare' o = L ++ ext))
    (hdir : ∀ d k, E' d k → (record vol v' d k).IsDirectory →
      isInvalidClusterNum (record vol v' d k).clusterNumber = false)
    (hin : ∀ d k, E' d k → InDir vol v' d (k * 32 + 32))
    (hpar : ∀ d k, E' d k → DirOf vol v' E' d) :
    Sound vol v' E' spare' := by
  refine ⟨?_, ?_, hdir, hin, hpar⟩
  · intro o ho
    rcases howner o ho with hnil | ⟨hold, ⟨heq, hdisj⟩ | ⟨_, _, heq⟩⟩
    · rw [hnil]
      exact .nil vol v'
    · rw [heq]
      exact ht.other (h.chain _ hold) (fun x hx hx' => hdisj hx hx')
    · rw [heq]
      exact ht.chain
  · intro o o' ho ho' hne
    have hne' : π o ≠ π o' := fun he => hne (hπ he)
    -- a chain that stayed shares nothing with the one that grew
    have hgrown : ∀ o₁ o₂, IsOwner E o₁ → IsOwner E o₂ → o₁ ≠ o₂ →
        ownerChain vol v spare o₂ = L → (ownerChain vol v spare o₁).Disjoint (L ++ ext) := by
      intro o₁ o₂ h₁ h₂ hne₁ hL
      rw [List.disjoint_append_right, ← hL]
      exact ⟨h.disjoint _ _ h₁ h₂ hne₁, fun x hx hx' => ht.not_mem (h.chain _ h₁) hx' hx⟩
    rcases howner o ho with hnil | ⟨hold, ⟨heq, _⟩ | ⟨hg, hL, heq⟩⟩
    · rw [hnil]
      exact List.disjoint_nil_left _
    · rcases howner o' ho' with hnil' | ⟨hold', ⟨heq', _⟩ | ⟨_, hL', heq'⟩⟩
      · rw [hnil']
        exact List.disjoint_nil_right _
      · rw [heq, heq']
        exact h.disjoint _ _ hold hold' hne'
      · rw [heq, heq']
        exact hgrown _ _ hold hold' hne' hL'
    · rcases howner o' ho' with hnil' | ⟨hold', ⟨heq', _⟩ | ⟨hg', _, _⟩⟩
      · rw [hnil']
        exact List.disjoint_nil_right _
      · rw [heq, heq']
        exact List.disjoint_symm (hgrown _ _ hold' hold hne'.symm hL)
      · exact absurd (hg.trans hg'.symm) hne'

end Sound

end Stuos.Fs.Fat
