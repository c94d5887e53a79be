import Stuos.Fs.Fat.Tree

/-!
# The steps of a call

A call on a volume is a sequence of steps: a cluster is allocated, bytes are written along
a chain, an entry is rewritten, entries are put at the end of a directory.  Each keeps the
chains of a fixed set of entries apart (`Sound`), and each has its frame: the directories
and files it leaves alone.

* `Sound.grow`: a chain grows that is not the chain of a directory.
* `Sound.rewrite`: an entry is rewritten; it may take over the spare chain.
* `Changed`: what a call on a file does, put together from such steps.
-/

namespace Stuos.Fs.Fat

open Stuos.Lib

variable {vol : Fat16Volume} {v v' v'' : View} {L ext : List Nat} {c d k : Nat}

/-! ### What a step leaves alone -/

/-- The directory is as it was. -/
structure SameDir (vol : Fat16Volume) (v v' : View) (d : Nat) : Prop where
  chain : v'.chain d = v.chain d
  bytes : dirBytes vol v' d = dirBytes vol v d

/-- The chain of `c` is as it was. -/
structure SameFile (vol : Fat16Volume) (v v' : View) (c : Nat) : Prop where
  chain : v'.chain c = v.chain c
  content : content vol v' (v.chain c) = content vol v (v.chain c)

namespace SameDir

theorem refl (vol : Fat16Volume) (v : View) (d : Nat) : SameDir vol v v d := ⟨rfl, rfl⟩

theorem trans (h : SameDir vol v v' d) (h' : SameDir vol v' v'' d) : SameDir vol v v'' d :=
  ⟨h'.chain.trans h.chain, h'.bytes.trans h.bytes⟩

theorem record (h : SameDir vol v v' d) (k : Nat) : record vol v' d k = record vol v d k := by
  funext i
  rw [Fat.record, Fat.record, h.bytes]

theorem inDir (h : SameDir vol v v' d) (m : Nat) : InDir vol v' d m ↔ InDir vol v d m := by
  rw [InDir, InDir, h.chain]

theorem listed (h : SameDir vol v v' d) (k : Nat) : Listed vol v' d k ↔ Listed vol v d k := by
  constructor
  · intro hl
    refine ⟨(h.inDir _).mp hl.inDir, ?_, ?_⟩
    · intro j hj
      rw [← h.record]
      exact hl.before j hj
    · rw [← h.record]
      exact hl.names
  · intro hl
    refine ⟨(h.inDir _).mpr hl.inDir, ?_, ?_⟩
    · intro j hj
      rw [h.record]
      exact hl.before j hj
    · rw [h.record]
      exact hl.names

end SameDir

/-- **Bytes outside the directories** do not matter for the chains. -/
theorem WellFormed.congr (h : WellFormed vol v) (hfat : v'.fat = v.fat)
    (hdirs : ∀ d, Reach vol v d → SameDir vol v v' d) : WellFormed vol v' := by
  have hreach : ∀ {d}, Reach vol v' d → Reach vol v d := by
    intro d hr
    induction hr with
    | root => exact .root
    | sub _ hl hdir ih =>
      have hsame := hdirs _ ih
      rw [hsame.record] at hdir ⊢
      exact .sub ih ((hsame.listed _).mp hl) hdir
  have hentry : ∀ {d k}, Entry vol v' d k →
      Entry vol v d k ∧ record vol v' d k = record vol v d k := by
    intro d k he
    have hsame := hdirs d (hreach he.reach)
    exact ⟨⟨hreach he.reach, (hsame.listed k).mp he.listed⟩, hsame.record k⟩
  have hchain : ∀ {d k}, Entry vol v' d k → chainOf vol v' d k = chainOf vol v d k := by
    intro d k he
    rw [chainOf, (hentry he).2]
    exact chain_congr hfat _
  refine ⟨?_, ?_, ?_⟩
  · intro d k he
    rw [hchain he]
    exact (h.chain d k (hentry he).1).congr fun c _ => congrFun hfat c
  · intro d k d' k' he he' hne
    rw [hchain he, hchain he']
    exact h.disjoint d k d' k' (hentry he).1 (hentry he').1 hne
  · intro d k he hdir
    rw [(hentry he).2] at hdir ⊢
    exact h.directory d k (hentry he).1 hdir

namespace SameFile

theorem refl (vol : Fat16Volume) (v : View) (c : Nat) : SameFile vol v v c := ⟨rfl, rfl⟩

theorem trans (h : SameFile vol v v' c) (h' : SameFile vol v' v'' c) : SameFile vol v v'' c := by
  have hc := h'.content
  rw [h.chain] at hc
  exact ⟨h'.chain.trans h.chain, hc.trans h.content⟩

theorem sameDir (h : SameFile vol v v' c) (hvalid : isInvalidClusterNum c = false) :
    SameDir vol v v' c := by
  have hroot : c ≠ parentIsRootDir := by
    intro heq
    rw [heq] at hvalid
    exact absurd hvalid (by decide)
  refine ⟨h.chain, ?_⟩
  rw [dirBytes, if_neg hroot, dirBytes, if_neg hroot, h.chain, h.content]

end SameFile

theorem Touched.sameDir (h : Touched vol v v' L ext) (hd : IsDir vol v d)
    (hroot : d = parentIsRootDir → v'.root = v.root) (hdisj : (v.chain d).Disjoint L) :
    SameDir vol v v' d :=
  ⟨h.chain_eq hd.isChain hdisj, h.dirBytes_eq hd hroot hdisj⟩

theorem Touched.sameFile (h : Touched vol v v' L ext) (hc : IsChain vol v (v.chain c))
    (hdisj : (v.chain c).Disjoint L) : SameFile vol v v' c :=
  ⟨h.chain_eq hc hdisj, h.content_eq hc hdisj⟩

/-! ### Steps of a set of entries -/

variable {E E' : Nat → Nat → Prop} {spare : List Nat}

/-- A directory of the entries, when they keep their places and the directories among them
their clusters. -/
theorem DirOf.mono (h : DirOf vol v E d) (hE : ∀ a b, E a b → E' a b)
    (hrec : ∀ a b, E a b → (record vol v a b).IsDirectory →
      (record vol v' a b).IsDirectory ∧
        (record vol v' a b).clusterNumber = (record vol v a b).clusterNumber) :
    DirOf vol v' E' d := by
  rcases h with hd | ⟨p, j, hp, hdir, hc⟩
  · exact .inl hd
  · obtain ⟨hdir', hc'⟩ := hrec p j hp hdir
    exact .inr ⟨p, j, hE p j hp, hdir', hc'.trans hc⟩

/-- The spare chain after a step that made the chain of `o` longer. -/
def spareAfter (spare ext : List Nat) (o : Owner) : List Nat :=
  if o = none then spare ++ ext else spare

namespace Sound

theorem sameRecord (h : Sound vol v E spare) (hsame : ∀ a, DirOf vol v E a → SameDir vol v v' a)
    (he : E d k) : record vol v' d k = record vol v d k :=
  (hsame d (h.parent d k he)).record k

/-- **A chain grows and no directory changes.** -/
theorem grow (h : Sound vol v E spare) {o₀ : Owner} (ho₀ : IsOwner E o₀)
    (ht : Grown vol v v' (ownerChain vol v spare o₀) ext)
    (hsame : ∀ a, DirOf vol v E a → SameDir vol v v' a) :
    Sound vol v' E (spareAfter spare ext o₀) := by
  have hrec : ∀ a b, E a b → record vol v' a b = record vol v a b :=
    fun a b he => h.sameRecord hsame he
  refine h.step ht id Function.injective_id o₀ ?_ ?_ ?_ ?_
  · intro o ho
    by_cases heq : o = o₀
    · subst heq
      cases o with
      | none => exact .inr ⟨ho, .inr ⟨rfl, rfl, by rw [ownerChain, spareAfter, if_pos rfl]; rfl⟩⟩
      | some e =>
        obtain ⟨a, b⟩ := e
        have hchain : ownerChain vol v' (spareAfter spare ext (some (a, b))) (some (a, b)) =
            v'.chain (record vol v a b).clusterNumber := by
          rw [ownerChain, Fat.chainOf, hrec a b ho]
        cases hvalid : isInvalidClusterNum (record vol v a b).clusterNumber with
        | true =>
          left
          rw [hchain, chain_of_invalid v' hvalid]
        | false =>
          exact .inr ⟨ho, .inr ⟨rfl, rfl, by rw [hchain]; exact ht.chain_eq_append hvalid⟩⟩
    · have hdisj := h.disjoint o o₀ ho ho₀ heq
      right
      refine ⟨ho, .inl ⟨?_, hdisj⟩⟩
      cases o with
      | none =>
        rw [ownerChain, spareAfter, if_neg (fun he => heq he.symm)]
        rfl
      | some e =>
        obtain ⟨a, b⟩ := e
        rw [ownerChain, Fat.chainOf, hrec a b ho]
        exact ht.chain_eq (h.chainOf ho) hdisj
  · intro a b he hdir
    rw [hrec a b he] at hdir ⊢
    exact h.directory a b he hdir
  · intro a b he
    exact ((hsame a (h.parent a b he)).inDir _).mpr (h.inDir a b he)
  · intro a b he
    refine (h.parent a b he).mono (fun _ _ h => h) ?_
    intro p j hp hdir
    rw [hrec p j hp]
    exact ⟨hdir, rfl⟩

/-- **A step on a chain that is no directory**: all directories and all other chains stay. -/
theorem touch (h : Sound vol v E spare) (o₀ : Owner) (ho₀ : IsOwner E o₀)
    (hfile : ∀ p j, o₀ = some (p, j) → ¬ (record vol v p j).IsDirectory)
    (ht : Touched vol v v' (ownerChain vol v spare o₀) ext) (hroot : v'.root = v.root) :
    Sound vol v' E (spareAfter spare ext o₀) ∧ (∀ a, DirOf vol v E a → SameDir vol v v' a) ∧
      ∀ a b, E a b → some (a, b) ≠ o₀ → SameFile vol v v' (record vol v a b).clusterNumber := by
  have hsame : ∀ a, DirOf vol v E a → SameDir vol v v' a := by
    intro a ha
    apply ht.sameDir (h.isDir ha) (fun _ => hroot)
    exact h.dir_disjoint ha ho₀ fun p j heq hdir => absurd hdir (hfile p j heq)
  refine ⟨h.grow ho₀ ht.toGrown hsame, hsame, ?_⟩
  intro a b he hne
  exact ht.sameFile (h.chainOf he) (h.disjoint (some (a, b)) o₀ he ho₀ hne)

theorem owner_unique (h : Sound vol v E spare) {a b a' b' : Nat} (he : E a b) (he' : E a' b')
    (hdir : (record vol v a b).IsDirectory)
    (heq : (record vol v a' b').clusterNumber = (record vol v a b).clusterNumber) :
    (a, b) = (a', b') := by
  by_contra hne
  have hdisj := h.disjoint (some (a, b)) (some (a', b')) he he'
    (fun heq => hne (Option.some.inj heq))
  rw [ownerChain, ownerChain, Fat.chainOf, Fat.chainOf, heq,
    chain_eq_cons v (h.directory a b he hdir)] at hdisj
  exact hdisj (List.mem_cons_self ..) (List.mem_cons_self ..)

theorem exists_dirOwner (h : Sound vol v E spare) (hd : DirOf vol v E d) :
    ∃ o₀ : Owner, ∀ a b, E a b → (record vol v a b).IsDirectory →
      (record vol v a b).clusterNumber = d → some (a, b) = o₀ := by
  rcases hd with rfl | ⟨p, j, hp, hpd, rfl⟩
  · refine ⟨none, fun a b he hdir heq => ?_⟩
    have hvalid := h.directory a b he hdir
    rw [heq] at hvalid
    exact absurd hvalid (by decide)
  · refine ⟨some (p, j), fun a b he hdir heq => congrArg some ?_⟩
    exact h.owner_unique he hp hdir heq.symm

/-- **An entry that keeps its cluster** keeps its chain, or has the chain of the directory. -/
theorem dir_ownerChain (h : Sound vol v E spare) (hd : DirOf vol v E d)
    (ht : Grown vol v v' (v.chain d) ext) {o₀ : Owner}
    (ho₀ : ∀ a b, E a b → (record vol v a b).IsDirectory →
      (record vol v a b).clusterNumber = d → some (a, b) = o₀)
    {a b : Nat} (he : E a b) (spare' : List Nat)
    (hc : (record vol v' a b).clusterNumber = (record vol v a b).clusterNumber) :
    ownerChain vol v' spare' (some (a, b)) = ownerChain vol v spare (some (a, b)) ∧
        (ownerChain vol v spare (some (a, b))).Disjoint (v.chain d) ∨
      some (a, b) = o₀ ∧ ownerChain vol v spare (some (a, b)) = v.chain d ∧
        ownerChain vol v' spare' (some (a, b)) = v.chain d ++ ext := by
  have hchain : ownerChain vol v' spare' (some (a, b)) =
      v'.chain (record vol v a b).clusterNumber := by
    rw [ownerChain, Fat.chainOf, hc]
  by_cases hown : (record vol v a b).IsDirectory ∧ (record vol v a b).clusterNumber = d
  · right
    have hvalid := h.directory a b he hown.1
    rw [hchain, ownerChain, Fat.chainOf, hown.2]
    rw [hown.2] at hvalid
    exact ⟨ho₀ a b he hown.1 hown.2, rfl, ht.chain_eq_append hvalid⟩
  · left
    have hdisj : (ownerChain vol v spare (some (a, b))).Disjoint (v.chain d) := by
      refine List.disjoint_symm (h.dir_disjoint hd (o := some (a, b)) he ?_)
      rintro p j heq hdir hcl
      cases heq
      exact hown ⟨hdir, hcl⟩
    refine ⟨?_, hdisj⟩
    rw [hchain]
    exact ht.chain_eq (h.chainOf he) hdisj

/-- **A step on a directory.**  The entry `e₀` keeps its chain, or it takes over the spare
one; all others keep theirs. -/
theorem dir_step (h : Sound vol v E spare) (hd : DirOf vol v E d)
    (ht : Grown vol v v' (v.chain d) ext) {spare' : List Nat} (e₀ : Nat × Nat)
    (hkept : ∀ a b, E' a b → (a, b) ≠ e₀ → E a b ∧
      (record vol v' a b).clusterNumber = (record vol v a b).clusterNumber)
    (hnew : E e₀.1 e₀.2 ∧ spare' = spare ∧
        (record vol v' e₀.1 e₀.2).clusterNumber = (record vol v e₀.1 e₀.2).clusterNumber ∨
      v.chain (record vol v' e₀.1 e₀.2).clusterNumber = spare ∧ spare' = [])
    (hdir : ∀ a b, E' a b → (record vol v' a b).IsDirectory →
      isInvalidClusterNum (record vol v' a b).clusterNumber = false)
    (hin : ∀ a b, E' a b → InDir vol v' a (b * 32 + 32))
    (hpar : ∀ a b, E' a b → DirOf vol v' E' a) : Sound vol v' E' spare' := by
  -- the entry whose chain grows
  obtain ⟨o₀, ho₀⟩ := h.exists_dirOwner hd
  have hspare : spare.Disjoint (v.chain d) :=
    List.disjoint_symm (h.dir_disjoint (o := none) hd trivial (by simp))
  rcases hnew with ⟨he₀, rfl, hc₀⟩ | ⟨hc₀, rfl⟩
  · refine h.step ht id Function.injective_id o₀ ?_ hdir hin hpar
    intro o ho
    right
    cases o with
    | none => exact ⟨trivial, .inl ⟨rfl, hspare⟩⟩
    | some e =>
      obtain ⟨a, b⟩ := e
      by_cases heq : (a, b) = e₀
      · subst heq
        exact ⟨he₀, h.dir_ownerChain hd ht ho₀ he₀ _ hc₀⟩
      · obtain ⟨he, hc⟩ := hkept a b ho heq
        exact ⟨he, h.dir_ownerChain hd ht ho₀ he _ hc⟩
  · refine h.step ht (Equiv.swap none (some e₀)) (Equiv.injective _) o₀ ?_ hdir hin hpar
    intro o ho
    cases o with
    | none => exact .inl rfl
    | some e =>
      right
      obtain ⟨a, b⟩ := e
      by_cases heq : (a, b) = e₀
      · subst heq
        rw [Equiv.swap_apply_right]
        refine ⟨trivial, .inl ⟨?_, hspare⟩⟩
        change v'.chain (record vol v' a b).clusterNumber = spare
        have hchain : IsChain vol v (v.chain (record vol v' a b).clusterNumber) := by
          rw [hc₀]
          exact h.spare_chain
        exact (ht.chain_eq hchain (by rw [hc₀]; exact hspare)).trans hc₀
      · obtain ⟨he, hc⟩ := hkept a b ho heq
        rw [Equiv.swap_apply_of_ne_of_ne (by simp) (fun h => heq (Option.some.inj h))]
        exact ⟨he, h.dir_ownerChain hd ht ho₀ he _ hc⟩

theorem frame_dir (h : Sound vol v E spare) (hd : DirOf vol v E d) {off : Nat}
    {input : List UInt8} (hw : DirWritten vol v v' d ext off input) :
    (∀ a, DirOf vol v E a → a ≠ d → SameDir vol v v' a) ∧
    (∀ a b, E a b → ¬ (record vol v a b).IsDirectory →
      SameFile vol v v' (record vol v a b).clusterNumber) ∧
    ∀ c, v.chain c = spare → SameFile vol v v' c := by
  have ht := hw.touched
  refine ⟨?_, ?_, ?_⟩
  · intro a ha hne
    refine ht.sameDir (h.isDir ha) ?_ (h.dirs_disjoint ha hd hne)
    intro hroot
    exact hw.root fun hd' => hne (hroot.trans hd'.symm)
  · intro a b he hfile
    refine ht.sameFile (h.chainOf he) (List.disjoint_symm ?_)
    refine h.dir_disjoint hd (o := some (a, b)) he fun p j heq hdir => ?_
    cases heq
    exact absurd hdir hfile
  · intro c hc
    refine ht.sameFile ?_ (List.disjoint_symm ?_)
    · rw [hc]
      exact h.spare_chain
    · rw [hc]
      exact h.dir_disjoint (o := none) hd trivial (by simp)

theorem record_rewrite (h : Sound vol v E spare) {r : Fat16DirectoryEntry} (hd : DirOf vol v E d)
    (hw : DirWritten vol v v' d ext (k * 32) r.toBytes) {a b : Nat} (he : E a b)
    (hne : (a, b) ≠ (d, k)) : record vol v' a b = record vol v a b := by
  by_cases ha : a = d
  · subst ha
    exact hw.record_of_ne (h.inDir a b he) fun hb => hne (by rw [hb])
  · exact ((h.frame_dir hd hw).1 a (h.parent a b he) ha).record b

/-- **An entry is rewritten**: it keeps its first cluster, or takes over the spare chain. -/
theorem rewrite (h : Sound vol v E spare) {r : Fat16DirectoryEntry} {spare' : List Nat}
    (he : E d k) (hw : DirWritten vol v v' d ext (k * 32) r.toBytes)
    (hdir : r.IsDirectory ↔ (record vol v d k).IsDirectory)
    (hnew : r.clusterNumber = (record vol v d k).clusterNumber ∧ spare' = spare ∨
      ¬ r.IsDirectory ∧ v.chain r.clusterNumber = spare ∧ spare' = []) :
    Sound vol v' E spare' := by
  have hd := h.parent d k he
  have hself : record vol v' d k = r := hw.record_self
  have hother := fun {a b : Nat} => h.record_rewrite hd hw (a := a) (b := b)
  have hkeep : ∀ a b, E a b → (record vol v a b).IsDirectory →
      (record vol v' a b).IsDirectory ∧
        (record vol v' a b).clusterNumber = (record vol v a b).clusterNumber := by
    intro a b hab hrd
    by_cases heq : (a, b) = (d, k)
    · cases heq
      rw [hself]
      rcases hnew with ⟨hc, -⟩ | ⟨hnd, -⟩
      · exact ⟨hdir.mpr hrd, hc⟩
      · exact absurd (hdir.mpr hrd) hnd
    · rw [hother hab heq]
      exact ⟨hrd, rfl⟩
  have hback : ∀ a b, E a b → (record vol v' a b).IsDirectory → (record vol v a b).IsDirectory := by
    intro a b hab hrd
    by_cases heq : (a, b) = (d, k)
    · cases heq
      rw [hself] at hrd
      exact hdir.mp hrd
    · rwa [hother hab heq] at hrd
  refine h.dir_step hd hw.grown (d, k) ?_ ?_ ?_ ?_ ?_
  · intro a b hab hne
    exact ⟨hab, by rw [hother hab hne]⟩
  · simp only [hself]
    rcases hnew with ⟨hc, hs⟩ | ⟨-, hc, hs⟩
    · exact .inl ⟨he, hs, hc⟩
    · exact .inr ⟨hc, hs⟩
  · intro a b hab hrd
    have hrd' := hback a b hab hrd
    rw [(hkeep a b hab hrd').2]
    exact h.directory a b hab hrd'
  · intro a b hab
    by_cases ha : a = d
    · subst ha
      exact hw.inDir _ (h.inDir a b hab)
    · exact (((h.frame_dir hd hw).1 a (h.parent a b hab) ha).inDir _).mpr (h.inDir a b hab)
  · intro a b hab
    exact (h.parent a b hab).mono (fun _ _ h => h) hkeep

end Sound

/-- **Nothing but the spare chain has changed.** -/
structure Prepared (vol : Fat16Volume) (v v' : View) (E : Nat → Nat → Prop) (spare : List Nat) :
    Prop where
  sound : Sound vol v' E spare
  dirs : ∀ a, DirOf vol v E a → SameDir vol v v' a
  files : ∀ a b, E a b → SameFile vol v v' (record vol v a b).clusterNumber

theorem Prepared.refl (h : Sound vol v E spare) : Prepared vol v v E spare :=
  ⟨h, fun a _ => .refl vol v a, fun _ _ _ => .refl vol v _⟩

theorem Prepared.trans {spare₁ spare₂ : List Nat} (h : Prepared vol v v' E spare₁)
    (hs : Sound vol v E spare) (h' : Prepared vol v' v'' E spare₂) :
    Prepared vol v v'' E spare₂ := by
  have hrec : ∀ a b, E a b → record vol v' a b = record vol v a b :=
    fun a b he => hs.sameRecord h.dirs he
  refine ⟨h'.sound, ?_, ?_⟩
  · intro a ha
    refine (h.dirs a ha).trans (h'.dirs a (ha.mono (fun _ _ h => h) fun p j hp hdir => ?_))
    rw [hrec p j hp]
    exact ⟨hdir, rfl⟩
  · intro a b he
    have hf := h'.files a b he
    rw [hrec a b he] at hf
    exact (h.files a b he).trans hf

theorem Sound.prepare (h : Sound vol v E spare) (ht : Touched vol v v' spare ext)
    (hroot : v'.root = v.root) : Prepared vol v v' E (spare ++ ext) := by
  obtain ⟨hs, hdirs, hfiles⟩ := h.touch none trivial (by simp) ht hroot
  exact ⟨hs, hdirs, fun a b he => hfiles a b he (by simp)⟩

/-! ### A file is changed -/

/-- The entry `k` of the directory `d` does not lie in its last cluster.  The root directory
has no clusters. -/
def Inner (vol : Fat16Volume) (v : View) (d k : Nat) : Prop :=
  d = parentIsRootDir ∨ k * 32 / bytesPerCluster vol + 1 < (v.chain d).length

theorem Inner.congr (h : Inner vol v d k) (hchain : v'.chain d = v.chain d) : Inner vol v' d k := by
  rwa [Inner, hchain]

/-- **What a call on the file at `(d, k)` does**: its entry becomes `r`, its chain and that of
its directory may get longer, and nothing else changes. -/
structure Changed (vol : Fat16Volume) (v v' : View) (E : Nat → Nat → Prop) (d k : Nat)
    (r : Fat16DirectoryEntry) : Prop where
  sound : Sound vol v' E []
  record : record vol v' d k = r
  siblings : ∀ j, j ≠ k → InDir vol v d (j * 32 + 32) → Fat.record vol v' d j = Fat.record vol v d j
  inDir : ∀ m, InDir vol v d m → InDir vol v' d m
  dirChain : v.chain d <+: v'.chain d
  inner : Inner vol v d k → v'.chain d = v.chain d
  dirs : ∀ a, DirOf vol v E a → a ≠ d → SameDir vol v v' a
  files : ∀ a b, E a b → (a, b) ≠ (d, k) → ¬ (Fat.record vol v a b).IsDirectory →
    SameFile vol v v' (Fat.record vol v a b).clusterNumber
  chain : chainOf vol v d k <+: chainOf vol v' d k

theorem DirWritten.chain_prefix {off : Nat} {input : List UInt8}
    (h : DirWritten vol v v' d ext off input) (hd : IsDir vol v d) : v.chain d <+: v'.chain d := by
  rcases hd with rfl | ⟨hvalid, -⟩
  · rw [chain_root]
    exact List.nil_prefix
  · rw [h.grown.chain_eq_append hvalid]
    exact List.prefix_append _ _

namespace Changed

variable {r : Fat16DirectoryEntry}

theorem of_rewrite (h : Sound vol v E spare) (he : E d k)
    (hfile : ¬ (Fat.record vol v d k).IsDirectory)
    (hw : DirWritten vol v v' d ext (k * 32) r.toBytes)
    (hinner : Inner vol v d k → v'.chain d = v.chain d) (hr : ¬ r.IsDirectory)
    (hnew : r.clusterNumber = (Fat.record vol v d k).clusterNumber ∧ spare = [] ∨
      chainOf vol v d k = [] ∧ v.chain r.clusterNumber = spare) :
    Changed vol v v' E d k r ∧ SameFile vol v v' r.clusterNumber := by
  have hd := h.parent d k he
  obtain ⟨hdirs, hfiles, hspare⟩ := h.frame_dir hd hw
  have hself : Fat.record vol v' d k = r := hw.record_self
  have hsame : SameFile vol v v' r.clusterNumber := by
    rcases hnew with ⟨hc, -⟩ | ⟨-, hc⟩
    · rw [hc]
      exact hfiles d k he hfile
    · exact hspare _ hc
  refine ⟨⟨?_, hself, ?_, hw.inDir, hw.chain_prefix (h.isDir hd), hinner, hdirs, ?_, ?_⟩, hsame⟩
  · refine h.rewrite he hw ⟨fun hd => absurd hd hr, fun hd => absurd hd hfile⟩ ?_
    rcases hnew with ⟨hc, hs⟩ | ⟨-, hc⟩
    · exact .inl ⟨hc, hs.symm⟩
    · exact .inr ⟨hr, hc, rfl⟩
  · exact fun j hj hin => hw.record_of_ne hin hj
  · exact fun a b hab _ hnd => hfiles a b hab hnd
  · rcases hnew with ⟨hc, -⟩ | ⟨hnil, -⟩
    · have hchain : chainOf vol v' d k = chainOf vol v d k := by
        rw [chainOf, hself, hsame.chain, hc]
        rfl
      exact hchain ▸ List.prefix_refl _
    · rw [hnil]
      exact List.nil_prefix

/-- A step in front that changes no directory and no file. -/
theorem after (h : Sound vol v E spare) {spare' : List Nat} (hp : Prepared vol v v' E spare')
    (he : E d k) (hc : Changed vol v' v'' E d k r) : Changed vol v v'' E d k r := by
  have hd := hp.dirs d (h.parent d k he)
  have hrec : ∀ a b, E a b → Fat.record vol v' a b = Fat.record vol v a b :=
    fun a b hab => h.sameRecord hp.dirs hab
  refine ⟨hc.sound, hc.record, ?_, ?_, ?_, ?_, ?_, ?_, ?_⟩
  · intro j hj hin
    exact (hc.siblings j hj ((hd.inDir _).mpr hin)).trans (hd.record j)
  · exact fun m hm => hc.inDir m ((hd.inDir m).mpr hm)
  · exact hd.chain ▸ hc.dirChain
  · exact fun hi => (hc.inner (hi.congr hd.chain)).trans hd.chain
  · intro a ha hne
    refine (hp.dirs a ha).trans (hc.dirs a (ha.mono (fun _ _ h => h) ?_) hne)
    intro p j hpj hdir
    rw [hrec p j hpj]
    exact ⟨hdir, rfl⟩
  · intro a b hab hne hfile
    have hf := hc.files a b hab hne (by rw [hrec a b hab]; exact hfile)
    rw [hrec a b hab] at hf
    exact (hp.files a b hab).trans hf
  · have hf := (hp.files d k he).chain
    have hpre := hc.chain
    rw [chainOf, hrec d k he, hf] at hpre
    exact hpre

theorem record_of_ne (hc : Changed vol v v' E d k r) (h : Sound vol v E spare) {a b : Nat}
    (he : E a b) (hne : (a, b) ≠ (d, k)) : Fat.record vol v' a b = Fat.record vol v a b := by
  by_cases ha : a = d
  · subst ha
    exact hc.siblings b (fun hb => hne (by rw [hb])) (h.inDir a b he)
  · exact (hc.dirs a (h.parent a b he) ha).record b

theorem written (hc : Changed vol v v' E d k r) (h : Sound vol v E []) (he : E d k)
    (hr : ¬ r.IsDirectory) (hfile : ¬ (Fat.record vol v d k).IsDirectory) {pos : Nat}
    {input : List UInt8} (hw : Written vol v' v'' (chainOf vol v' d k) ext pos input) :
    Changed vol v v'' E d k r := by
  obtain ⟨hs, hdirs, hfiles⟩ := hc.sound.touch (some (d, k)) he
    (fun p j heq => by cases heq; rw [hc.record]; exact hr) hw.touched hw.root
  have hkeep : ∀ a b, E a b → (Fat.record vol v a b).IsDirectory →
      (Fat.record vol v' a b).IsDirectory ∧
        (Fat.record vol v' a b).clusterNumber = (Fat.record vol v a b).clusterNumber := by
    intro a b hab hdir
    rw [hc.record_of_ne h hab fun heq => by cases heq; exact hfile hdir]
    exact ⟨hdir, rfl⟩
  have hd := hdirs d (hc.sound.parent d k he)
  have hrec : ∀ a b, E a b → Fat.record vol v'' a b = Fat.record vol v' a b :=
    fun a b hab => hc.sound.sameRecord hdirs hab
  refine ⟨hs, ?_, ?_, ?_, ?_, ?_, ?_, ?_, ?_⟩
  · rw [hrec d k he, hc.record]
  · exact fun j hj hin => (hd.record j).trans (hc.siblings j hj hin)
  · exact fun m hm => (hd.inDir m).mpr (hc.inDir m hm)
  · rw [hd.chain]
    exact hc.dirChain
  · exact fun hi => hd.chain.trans (hc.inner hi)
  · intro a ha hne
    exact (hc.dirs a ha hne).trans (hdirs a (ha.mono (fun _ _ h => h) hkeep))
  · intro a b hab hne hnd
    have hf := hfiles a b hab (fun heq => hne (Option.some.inj heq))
    rw [hc.record_of_ne h hab hne] at hf
    exact (hc.files a b hab hne hnd).trans hf
  · have hchain : chainOf vol v'' d k = v''.chain r.clusterNumber := by
      rw [chainOf, hrec d k he, hc.record]
    have hold : chainOf vol v' d k = v'.chain r.clusterNumber := by rw [chainOf, hc.record]
    refine hc.chain.trans ?_
    rw [hchain]
    rw [hold] at hw ⊢
    cases hvalid : isInvalidClusterNum r.clusterNumber with
    | true =>
      rw [chain_of_invalid v' hvalid]
      exact List.nil_prefix
    | false =>
      rw [hw.chain_eq_append hvalid]
      exact List.prefix_append _ _

end Changed

end Stuos.Fs.Fat
