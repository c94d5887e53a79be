import Stuos.Fs.Fat.Integrity

/-!
# Listing what was created

A directory that `create_inode` made and filled holds, for every node, the parts of its
long name, last part first, and its entry; `read_dirents` puts the parts together again.

* `readLongName_longEntries`, `long_name_round_trip`: the parts of a long name give the name.
* `Filled.create`: a call of `create_inode` adds one such group of entries.
* `readDirents_filled`: the listing of a filled directory.
-/

namespace Stuos.Fs.Fat

open Stuos.Lib Fat16DirectoryEntry

/-! ### Long names -/

/-- A name of 7-bit characters without zeroes. -/
def IsAscii (name : List UInt8) : Prop := ∀ c ∈ name, c ≠ 0 ∧ c.toNat < 128

instance (name : List UInt8) : Decidable (IsAscii name) :=
  List.decidableBAll (fun c : UInt8 => c ≠ 0 ∧ c.toNat < 128) name

theorem charU16_of_ascii {c : UInt8} (h : c.toNat < 128) : charU16 c = c.toNat := if_pos h

theorem writeChars_lt (m : Nat) {name : List UInt8} : ∀ c ∈ writeChars m name, c < 2 ^ 16 := by
  induction m generalizing name with
  | zero => exact fun c hc => by cases hc
  | succ m ih =>
    intro c hc
    cases name with
    | nil =>
      rw [writeChars, List.mem_cons, List.mem_replicate] at hc
      omega
    | cons a name =>
      rw [writeChars, List.mem_cons] at hc
      rcases hc with rfl | hc
      · have := a.toNat_lt
        rw [charU16]
        split <;> omega
      · exact ih c hc

/-- What is read of a part: all its characters, or those up to the zero behind the name. -/
def partOf (m : Nat) (name : List UInt8) : List UInt8 :=
  if m ≤ name.length then name.take m else name ++ [0]

theorem readChars_writeChars (m : Nat) {name : List UInt8} (h : IsAscii name) :
    readChars (writeChars m name) = .ok (partOf m name) := by
  induction m generalizing name with
  | zero => rfl
  | succ m ih =>
    cases name with
    | nil => rfl
    | cons a name =>
      obtain ⟨hne, hlt⟩ := h a (List.mem_cons_self ..)
      have hzero : ¬ a.toNat = 0 := fun h0 => hne (UInt8.toNat_inj.mp h0)
      rw [writeChars, readChars, charU16_of_ascii hlt, ensure_of (by omega), ok_bind,
        if_neg hzero, ih fun c hc => h c (List.mem_cons_of_mem _ hc), ok_bind, UInt8.ofNat_toNat,
        pure_eq_ok, partOf, partOf, List.length_cons]
      by_cases hm : m ≤ name.length
      · rw [if_pos hm, if_pos (by omega), List.take_succ_cons]
      · rw [if_neg hm, if_neg (by omega), List.cons_append]

theorem readLongName_lfnLoop {count seq : Nat} {sum : UInt8} {name front : List UInt8}
    {made : List Fat16DirectoryEntry} (h : IsAscii name) (hseq : name.length / charsPerLfn + 1 = seq)
    (hmade : readLongName made = .ok front) :
    readLongName (lfnLoop count sum seq name made) = .ok (front ++ (name ++ [0])) := by
  rw [charsPerLfn] at hseq
  induction seq generalizing name made front with
  | zero => omega
  | succ seq ih =>
    have hlen := length_writeChars charsPerLfn name
    obtain ⟨hattr, hzeroA, hzeroB, -⟩ :=
      lfnEntry_fields (count - seq) (seq == 1) sum hlen
    have hpart : readLongName (lfnEntry (count - seq) (seq == 1) sum (writeChars charsPerLfn name) ::
        made) = .ok (front ++ partOf charsPerLfn name) := by
      rw [readLongName, hmade, ok_bind, ensure_of ⟨hzeroA, hzeroB⟩, ok_bind, ensure_of hattr,
        ok_bind, lfnEntry_unicodeName _ _ _ hlen (writeChars_lt _), readChars_writeChars _ h, ok_bind]
      rfl
    rw [lfnLoop]
    cases seq with
    | zero =>
      rw [lfnLoop, hpart, partOf, if_neg]
      rw [charsPerLfn]
      omega
    | succ seq =>
      have hdrop : IsAscii (name.drop charsPerLfn) := fun c hc => h c (List.mem_of_mem_drop hc)
      rw [ih hdrop (by rw [List.length_drop, charsPerLfn]; omega) hpart, partOf,
        if_pos (by rw [charsPerLfn]; omega), List.append_assoc, ← List.append_assoc _ _ [0],
        List.take_append_drop]

/-- **The parts of a long name give the name**, with its zero. -/
theorem readLongName_longEntries (createIdx : Nat) {name : List UInt8} (h : IsAscii name) :
    readLongName (longEntries createIdx name) = .ok (name ++ [0]) := by
  have hcount : name.length / charsPerLfn + 1 = lfnEntryCount name := by
    rw [lfnEntryCount, charsPerLfn]
    omega
  have hnone : readLongName [] = .ok [] := rfl
  rw [longEntries, readLongName_lfnLoop h hcount hnone, List.nil_append]

theorem lfnLoop_head (count seq : Nat) (sum : UInt8) (name : List UInt8)
    (made : List Fat16DirectoryEntry) :
    ∃ chars rest, lfnLoop count sum (seq + 1) name made = lfnEntry count false sum chars :: rest ∧
      chars.length = charsPerLfn := by
  induction seq generalizing name made with
  | zero => exact ⟨_, made, rfl, length_writeChars _ _⟩
  | succ seq ih =>
    rw [lfnLoop]
    exact ih _ _

theorem longEntries_head (createIdx : Nat) {name : List UInt8} (hlen : name.length ≤ 255) :
    ∃ e rest, longEntries createIdx name = e :: rest ∧ e.attributes = fileAttributesLfn ∧
      e.firstByte ≠ 0 ∧ e.firstByte ≠ 0xE5 ∧ e.sequenceNumber = lfnEntryCount name := by
  have hcount : lfnEntryCount name = name.length / 13 + 1 := by
    rw [lfnEntryCount, charsPerLfn]
    omega
  obtain ⟨chars, rest, heq, hchars⟩ := lfnLoop_head (lfnEntryCount name) (name.length / 13)
    (checksum (shortFileName createIdx)) name []
  obtain ⟨hattr, -, -, hfirst⟩ := lfnEntry_fields (lfnEntryCount name) false
    (checksum (shortFileName createIdx)) hchars
  have hnat : (lfnEntry (lfnEntryCount name) false (checksum (shortFileName createIdx))
      chars).firstByte.toNat = lfnEntryCount name := by
    rw [hfirst, if_neg (by decide), UInt8.toNat_ofNat']
    omega
  refine ⟨_, rest, ?_, hattr, ?_, ?_, ?_⟩
  · rw [longEntries, ← heq, ← hcount]
  · intro h
    rw [h] at hnat
    have : (0 : UInt8).toNat = 0 := rfl
    omega
  · intro h
    rw [h] at hnat
    have : (0xE5 : UInt8).toNat = 229 := rfl
    omega
  · have hseq : ∀ e : Fat16DirectoryEntry, e.sequenceNumber = e.firstByte.toNat % 64 := fun _ => rfl
    rw [hseq, hnat]
    omega

/-! ### The name buffer -/

theorem bufferString_write {name : List UInt8} (h : IsAscii name) (hlen : name.length ≤ 255) :
    bufferString (Mem.write (fun _ => 0) 0 (name ++ [0])) = .ok name := by
  have hread : (Mem.write (fun _ => 0) 0 (name ++ [0])).read 0 maxPathLen = name ++ 0 ::
      (Mem.write (fun _ => 0) 0 (name ++ [0])).read (0 + (name ++ [0]).length)
        (255 - name.length) := by
    have hsplit : maxPathLen = (name ++ [0]).length + (255 - name.length) := by
      rw [maxPathLen, List.length_append, List.length_singleton]
      omega
    rw [hsplit, Mem.read_add, Mem.read_write_self, List.append_assoc]
    rfl
  have htake : ((Mem.write (fun _ => 0) 0 (name ++ [0])).read 0 maxPathLen).takeWhile (· ≠ 0) =
      name := by
    rw [hread, List.takeWhile_append_of_pos fun c hc => by simpa using (h c hc).1]
    simp
  rw [bufferString, htake, ensure_of (by rw [maxPathLen]; omega)]
  rfl

theorem write_name_ne_zero {name : List UInt8} (h : IsAscii name) (hne : name ≠ []) :
    Mem.write (fun _ => 0) 0 (name ++ [0]) 0 ≠ 0 := by
  obtain ⟨c, rest, rfl⟩ := List.exists_cons_of_ne_nil hne
  rw [Mem.write_of_mem _ _ (le_refl 0) (by simp)]
  exact (h c (List.mem_cons_self ..)).1

/-! ### Inode numbers -/

theorem intU64_mod (n : Nat) : intU64 n % 2 ^ 32 = n % 2 ^ 32 := by
  unfold intU64 int32 Int.bmod
  simp only
  split <;> omega

/-- The inode number of the entry `i` of the directory `d`. -/
def inodeAt (d i : Nat) : Nat := intU64 (d ||| i * 2 ^ 16)

theorem inodeAt_mod {d i : Nat} (hd : d < 2 ^ 16) (hi : i < 2 ^ 16) :
    inodeAt d i % 2 ^ 32 = d + 2 ^ 16 * i := by
  have hor : d ||| i * 2 ^ 16 = d + 2 ^ 16 * i := by
    rw [Nat.or_comm, Nat.mul_comm, ← Nat.two_pow_add_eq_or_of_lt hd, Nat.add_comm]
  rw [inodeAt, intU64_mod, hor]
  omega

theorem getParentClusterNum_inodeAt {d i : Nat} (hd : d < 2 ^ 16) (hi : i < 2 ^ 16) :
    getParentClusterNum (inodeAt d i) = d := by
  have h := inodeAt_mod hd hi
  rw [getParentClusterNum]
  omega

theorem getDirentIndexInParent_inodeAt {d i : Nat} (hd : d < 2 ^ 16) (hi : i < 2 ^ 16) :
    getDirentIndexInParent (inodeAt d i) = i := by
  have h := inodeAt_mod hd hi
  rw [getDirentIndexInParent]
  omega

theorem makeInode_ok {d i : Nat} (hd : d < 2 ^ 16) (hi : i < 2 ^ 16) (hroot : d ≠ iAmRootDir) :
    makeInode d i = .ok (inodeAt d i) := by
  have hnot : ¬ (d = iAmRootDir ∧ i ≠ 0) := fun h => hroot h.1
  rw [makeInode, Nat.mod_eq_of_lt hd, Nat.mod_eq_of_lt hi, ensure_of hnot]
  rfl

/-! ### The loop of `read_dirents` -/

section

variable {vol : Fat16Volume} {v : View} {disk : Mem} {d i : Nat}

/-- From index `i` on, the directory `d` has the entries `recs`. -/
structure HoldsAt (vol : Fat16Volume) (v : View) (d i : Nat) (recs : List Fat16DirectoryEntry) :
    Prop where
  inDir : InDir vol v d ((i + recs.length) * 32)
  records : ∀ j (hj : j < recs.length), record vol v d (i + j) = recs[j]

namespace HoldsAt

variable {recs recs' : List Fat16DirectoryEntry}

theorem left (h : HoldsAt vol v d i (recs ++ recs')) : HoldsAt vol v d i recs := by
  refine ⟨h.inDir.mono ?_, fun j hj => ?_⟩
  · rw [List.length_append]
    omega
  · rw [h.records j (by rw [List.length_append]; omega), List.getElem_append_left hj]

theorem right (h : HoldsAt vol v d i (recs ++ recs')) :
    HoldsAt vol v d (i + recs.length) recs' := by
  refine ⟨?_, fun j hj => ?_⟩
  · have := h.inDir
    rwa [List.length_append, ← Nat.add_assoc] at this
  · rw [Nat.add_assoc, h.records (recs.length + j) (by rw [List.length_append]; omega),
      List.getElem_append_right (by omega)]
    simp

theorem head {e : Fat16DirectoryEntry} (h : HoldsAt vol v d i (e :: recs)) :
    record vol v d i = e ∧ InDir vol v d (i * 32 + 32) := by
  refine ⟨h.records 0 (by simp), h.inDir.mono ?_⟩
  rw [List.length_cons]
  omega

end HoldsAt

variable (hg : Geometry vol) (hd : IsDir vol (view vol disk) d)
include hg hd

theorem readDirentsLoop_turn (hin : InDir vol (view vol disk) d (i * 32 + 32)) :
    ∃ bytes, readFromDirectory vol disk d (i * 32) 32 = .ok bytes ∧
      Fat16DirectoryEntry.ofBytes bytes = record vol (view vol disk) d i := by
  have hread := readFromDirectory_ok hg hd (n := 1) (by simpa using hin)
  rw [Nat.one_mul] at hread
  exact ⟨_, hread, ofBytes_read _ _ _ _⟩

theorem readDirentsLoop_end {fuel skip count : Nat} {fileName : Mem}
    (h : HoldsAt vol (view vol disk) d i [endSentinel]) :
    readDirentsLoop vol disk d (fuel + 1) i skip count fileName = .ok [] := by
  obtain ⟨hrec, hin⟩ := h.head
  obtain ⟨bytes, hread, hbytes⟩ := readDirentsLoop_turn hg hd hin
  have hattr : endSentinel.attributes &&& 0b11000000 = 0 := by decide
  have hzero : endSentinel.firstByte = 0 := rfl
  rw [readDirentsLoop, hread, ok_bind, hbytes, hrec]
  simp only
  rw [ensure_of hattr, ok_bind, if_pos hzero]
  rfl

theorem readEntries_ok {recs : List Fat16DirectoryEntry} (h : HoldsAt vol (view vol disk) d i recs) :
    readEntries vol disk d i recs.length = .ok recs := by
  have hin := h.inDir
  rw [Nat.add_mul] at hin
  rw [readEntries, readFromDirectory_ok hg hd hin, ok_bind, pure_eq_ok, Except.ok.injEq]
  apply List.ext_getElem
  · rw [List.length_map, List.length_range]
  · intro j hj hj'
    rw [List.getElem_map, List.getElem_range, ← h.records j hj']
    funext k
    have hk := k.isLt
    rw [ofBytes, List.getD_eq_getElem?_getD, List.getElem?_drop, Mem.read_getElem?,
      if_pos (by omega), Option.getD_some, record]
    congr 1
    omega

theorem readDirentsLoop_long {fuel skip count createIdx : Nat} {name : List UInt8}
    (hname : IsAscii name) (hlen : name.length ≤ 255)
    (h : HoldsAt vol (view vol disk) d i (longEntries createIdx name)) :
    readDirentsLoop vol disk d (fuel + 1) i skip count (fun _ => 0) =
      readDirentsLoop vol disk d fuel (i + lfnEntryCount name) skip count
        (Mem.write (fun _ => 0) 0 (name ++ [0])) := by
  obtain ⟨e, rest, heq, hattr, hzero, hfree, hseq⟩ := longEntries_head createIdx hlen
  have hentries := readEntries_ok hg hd h
  rw [length_longEntries] at hentries
  have hhead := h
  rw [heq] at hhead
  obtain ⟨hrec, hin⟩ := hhead.head
  obtain ⟨bytes, hread, hbytes⟩ := readDirentsLoop_turn hg hd hin
  have hcount : lfnEntryCount name ≤ (maxPathLen + charsPerLfn - 1) / charsPerLfn := by
    rw [lfnEntryCount, maxPathLen, charsPerLfn]
    omega
  have hroom : (name ++ [0]).length ≤ maxPathLen := by
    rw [List.length_append, List.length_singleton, maxPathLen]
    omega
  rw [readDirentsLoop, hread, ok_bind, hbytes, hrec]
  simp only [hattr, hseq]
  rw [ensure_of (by decide), ok_bind, if_neg hzero, if_neg hfree, if_true, ensure_of trivial,
    ok_bind, ensure_of hcount, ok_bind, hentries, ok_bind,
    readLongName_longEntries createIdx hname, ok_bind, ensure_of hroom, ok_bind]

theorem readDirentsLoop_short {fuel count : Nat} {fileName : Mem} {name : List UInt8}
    {r : Fat16DirectoryEntry} (h : HoldsAt vol (view vol disk) d i [r])
    (hattr : r.attributes = fileAttributesDirectory ∨ r.attributes = 0) (hfirst : r.firstByte = 82)
    (hzero : r.zero = 0) (hd16 : d < 2 ^ 16) (hi : i < 2 ^ 16) (hbuffer : fileName 0 ≠ 0)
    (hname : bufferString fileName = .ok name) :
    readDirentsLoop vol disk d (fuel + 1) i 0 (count + 1) fileName = (do
      let rest ← readDirentsLoop vol disk d fuel (i + 1) 0 count (fun _ => 0)
      return { dIno := inodeAt d i, dName := name } :: rest) := by
  obtain ⟨hrec, hin⟩ := h.head
  obtain ⟨bytes, hread, hbytes⟩ := readDirentsLoop_turn hg hd hin
  have hbits : r.attributes &&& 0b11000000 = 0 ∧ r.attributes ≠ fileAttributesLfn := by
    rcases hattr with hattr | hattr
    · rw [hattr]
      decide
    · rw [hattr]
      decide
  rw [readDirentsLoop, hread, ok_bind, hbytes, hrec]
  simp only [hfirst]
  rw [ensure_of hbits.1, ok_bind, if_neg (by decide), if_neg (by decide), if_neg hbits.2,
    ensure_of hzero, ok_bind]
  simp only [hbuffer, if_false]
  rw [makeInode_ok hd16 hi hd.ne_iAmRootDir, ok_bind, hname, ok_bind]

end

/-- A name that `create_inode` can store and `read_dirents` can return. -/
structure IsName (name : List UInt8) : Prop where
  ascii : IsAscii name
  ne : name ≠ []
  length_le : name.length ≤ 255

/-- **Long names round trip.**  `create_inode` makes `lfnEntryCount name` entries for a name, the
first of which says so; they fit the array of `read_dirents`, whose loop puts the name and its
zero, and nothing else, into the name buffer.  So where a directory holds them, one turn of the
scan goes past exactly these entries with the name in the buffer. -/
theorem long_name_round_trip (createIdx : Nat) {name : List UInt8} (hname : IsName name) :
    (longEntries createIdx name).length = lfnEntryCount name ∧
    (longEntries createIdx name).head?.map sequenceNumber = some (lfnEntryCount name) ∧
    lfnEntryCount name ≤ (maxPathLen + charsPerLfn - 1) / charsPerLfn ∧
    readLongName (longEntries createIdx name) = .ok (name ++ [0]) ∧
    (name ++ [0]).length ≤ maxPathLen ∧
    bufferString (Mem.write (fun _ => 0) 0 (name ++ [0])) = .ok name ∧
    ∀ (vol : Fat16Volume) (disk : Mem) (d i fuel skip count : Nat), Geometry vol →
      IsDir vol (view vol disk) d →
      HoldsAt vol (view vol disk) d i (longEntries createIdx name) →
      readDirentsLoop vol disk d (fuel + 1) i skip count (fun _ => 0) =
        readDirentsLoop vol disk d fuel (i + lfnEntryCount name) skip count
          (Mem.write (fun _ => 0) 0 (name ++ [0])) := by
  have hlen := hname.length_le
  obtain ⟨e, rest, heq, -, -, -, hseq⟩ := longEntries_head createIdx hlen
  refine ⟨length_longEntries createIdx name, ?_, ?_, readLongName_longEntries createIdx hname.ascii,
    ?_, bufferString_write hname.ascii hlen, ?_⟩
  · rw [heq, List.head?_cons, Option.map_some, hseq]
  · rw [lfnEntryCount, maxPathLen, charsPerLfn]
    omega
  · rw [List.length_append, List.length_singleton, maxPathLen]
    omega
  · intro vol disk d i fuel skip count hg hd hholds
    exact readDirentsLoop_long hg hd hname.ascii hlen hholds

/-- A name of thirteen letters takes two entries: its zero is alone in the second one. -/
theorem long_name_round_trip_thirteen :
    lfnEntryCount (List.replicate 13 97) = 2 ∧
      readLongName (longEntries 0 (List.replicate 13 97)) = .ok (List.replicate 13 97 ++ [0]) := by
  have hname : IsName (List.replicate 13 97) := ⟨by decide, by decide, by decide⟩
  exact ⟨by decide, (long_name_round_trip 0 hname).2.2.2.1⟩

/-! ### Groups of entries -/

/-- The entries of a new node of a type and a name: the parts of its name and its own entry. -/
def IsGroup (file : Nat × List UInt8) (group : List Fat16DirectoryEntry) : Prop :=
  ∃ createIdx r, group = longEntries createIdx file.2 ++ [r] ∧
    createFatMode file.1 = .ok r.attributes ∧ r.firstByte = 82 ∧ r.zero = 0

/-- How the nodes of a directory are listed whose groups start at index `i`. -/
def direntsAt (d : Nat) : Nat → List (Nat × List UInt8) → List Dirent
  | _, [] => []
  | i, file :: files =>
    { dIno := inodeAt d (i + lfnEntryCount file.2), dName := file.2 } ::
      direntsAt d (i + lfnEntryCount file.2 + 1) files

theorem IsGroup.length {file : Nat × List UInt8} {group : List Fat16DirectoryEntry}
    (h : IsGroup file group) : group.length = lfnEntryCount file.2 + 1 := by
  obtain ⟨createIdx, r, rfl, -⟩ := h
  rw [List.length_append, length_longEntries, List.length_singleton]

theorem attributes_of_createFatMode {mode : Nat} {attributes : UInt8}
    (h : createFatMode mode = .ok attributes) :
    attributes = fileAttributesDirectory ∨ attributes = 0 := by
  rw [createFatMode] at h
  split at h
  · exact .inl (Except.ok.inj h).symm
  · split at h
    · exact .inr (Except.ok.inj h).symm
    · cases h

theorem createFatMode_of_type {mode : Nat} (h : sIsdir mode = true ∨ sIsreg mode = true) :
    ∃ attributes, createFatMode mode = .ok attributes := by
  rw [createFatMode]
  by_cases hdir : sIsdir mode = true
  · exact ⟨_, if_pos hdir⟩
  · rw [if_neg hdir, if_pos (h.resolve_left hdir)]
    exact ⟨_, rfl⟩

section

variable {vol : Fat16Volume} {disk : Mem} {d i : Nat} {files : List (Nat × List UInt8)}
  {groups : List (List Fat16DirectoryEntry)}

/-- **The loop lists the groups** in their order. -/
theorem readDirentsLoop_groups (hg : Geometry vol) (hd : IsDir vol (view vol disk) d)
    (hd16 : d < 2 ^ 16) (hgroups : List.Forall₂ IsGroup files groups)
    (hnames : ∀ file ∈ files, IsName file.2) {fuel count : Nat}
    (h : HoldsAt vol (view vol disk) d i (groups.flatten ++ [endSentinel]))
    (hi : i + groups.flatten.length ≤ 2 ^ 16) (hfuel : groups.flatten.length < fuel)
    (hcount : files.length ≤ count) :
    readDirentsLoop vol disk d fuel i 0 count (fun _ => 0) = .ok (direntsAt d i files) := by
  induction hgroups generalizing i fuel count with
  | nil =>
    obtain ⟨fuel, rfl⟩ : ∃ k, fuel = k + 1 := ⟨fuel - 1, by omega⟩
    exact readDirentsLoop_end hg hd h
  | @cons file group files groups hgroup _ ih =>
    have hlength := hgroup.length
    obtain ⟨createIdx, r, rfl, hattr, hfirst, hzero⟩ := hgroup
    rw [List.flatten_cons, List.length_append] at hi hfuel
    rw [List.flatten_cons, List.append_assoc] at h
    obtain ⟨fuel, rfl⟩ : ∃ k, fuel = k + 2 := ⟨fuel - 2, by omega⟩
    obtain ⟨count, rfl⟩ : ∃ k, count = k + 1 := ⟨count - 1, by simp at hcount; omega⟩
    have hname := hnames file (List.mem_cons_self ..)
    have hright := h.left.right
    rw [length_longEntries] at hright
    have hrest := h.right
    rw [hlength, ← Nat.add_assoc] at hrest
    have hpos : 1 ≤ lfnEntryCount file.2 := by
      rw [lfnEntryCount, charsPerLfn]
      omega
    rw [readDirentsLoop_long hg hd hname.ascii hname.length_le h.left.left,
      readDirentsLoop_short hg hd hright (attributes_of_createFatMode hattr) hfirst hzero hd16
        (by omega) (write_name_ne_zero hname.ascii hname.ne)
        (bufferString_write hname.ascii hname.length_le),
      ih (fun f hf => hnames f (List.mem_cons_of_mem _ hf)) hrest (by omega) (by omega)
        (by simpa using hcount)]
    rfl

end

/-! ### Filling a directory -/

section

variable {vol : Fat16Volume} {v v' : View} {ino : Nat} {recs : List Fat16DirectoryEntry}

theorem HoldsAt.append {d i : Nat} {recs' : List Fat16DirectoryEntry} (h : HoldsAt vol v d i recs)
    (h' : HoldsAt vol v d (i + recs.length) recs') : HoldsAt vol v d i (recs ++ recs') := by
  refine ⟨?_, fun j hj => ?_⟩
  · rw [List.length_append, ← Nat.add_assoc]
    exact h'.inDir
  · rcases Nat.lt_or_ge j recs.length with hlt | hge
    · rw [List.getElem_append_left hlt]
      exact h.records j hlt
    · rw [List.getElem_append_right hge]
      rw [List.length_append] at hj
      have hrec := h'.records (j - recs.length) (by omega)
      rwa [show i + recs.length + (j - recs.length) = i + j by omega] at hrec

theorem Appended.holdsAt {E : Nat → Nat → Prop} {spare ext : List Nat} {d n : Nat}
    {long : List Fat16DirectoryEntry} {r : Fat16DirectoryEntry}
    (ha : Appended vol v v' E spare d n long r ext) :
    HoldsAt vol v' d n (long ++ [r, endSentinel]) := by
  refine ⟨?_, fun j hj => ha.written.record_entries hj⟩
  have hroom := ha.written.room (by simp [toBytes])
  rw [length_flatMap_toBytes] at hroom
  exact hroom.mono (by omega)

/-- **The directory `ino` has been filled with `recs`** by `create_inode` alone. -/
structure Filled (vol : Fat16Volume) (v : View) (ino : Nat) (recs : List Fat16DirectoryEntry) :
    Prop where
  wellFormed : WellFormed vol v
  node : IsNode (Entry vol v) ino
  attributes : (direntOf vol v ino).attributes = fileAttributesDirectory
  parentEnd : ∃ n, DirEnd vol v (getParentClusterNum ino) n
  apart : (direntOf vol v ino).clusterNumber ≠ getParentClusterNum ino
  holdsAt : HoldsAt vol v (direntOf vol v ino).clusterNumber 0 (recs ++ [endSentinel])
  nonzero : ∀ e ∈ recs, e.firstByte ≠ 0
  size : (direntOf vol v ino).fileSizeBytes = 32 * (recs.length + 1)

namespace Filled

theorem dirEnd (h : Filled vol v ino recs) :
    DirEnd vol v (direntOf vol v ino).clusterNumber recs.length := by
  have hstop := h.holdsAt.right.head
  rw [Nat.zero_add] at hstop
  refine ⟨hstop.2, ?_, fun j hj => ?_⟩
  · rw [hstop.1]
    rfl
  · have hrec := h.holdsAt.left.records j hj
    rw [Nat.zero_add] at hrec
    rw [hrec]
    exact h.nonzero _ (List.getElem_mem hj)

theorem isDirectory (h : Filled vol v ino recs) : (direntOf vol v ino).IsDirectory := by
  rw [IsDirectory, h.attributes]
  decide

theorem insertable (h : Filled vol v ino recs) : Insertable vol v (Entry vol v) ino :=
  .inr ⟨h.node, .inr h.parentEnd, .inr ⟨_, h.dirEnd, h.size⟩⟩

/-- **`create_inode` adds a group of entries.** -/
theorem create (hg : Geometry vol) {s s' : FatState} {newInodeType : Nat} {name : List UInt8}
    (hf : Filled vol (view vol s.disk) ino recs) (hroom : recs.length + lfnEntryCount name < 2 ^ 16)
    (h : createInode vol s ino newInodeType name = .ok s') :
    ∃ group, IsGroup (newInodeType, name) group ∧
      Filled vol (view vol s'.disk) ino (recs ++ group) := by
  have hs := hf.wellFormed.sound
  have he := hf.node
  have hparent := hs.parent _ _ he
  obtain ⟨v₁, v₂, r, ext₁, ext, hp, hr, ha, hentry, hdir⟩ :=
    createInode_node hg hs he he.listed hf.dirEnd hf.size h
  have hsafe : Safe vol s (.createInode ino newInodeType name) := hf.insertable
  obtain ⟨hwf', hk⟩ := exec_kept hg hf.wellFormed hsafe h
  have hs₂ := hr.sound hp.sound he
  have hlisted₂ : ∀ a b, Entry vol (view vol s.disk) a b → Listed vol v₂ a b :=
    fun a b hab => ((hp.kept hs).trans (hr.kept hp.sound he)).listed a b hab hab.listed
  have hrec : direntOf vol (view vol s'.disk) ino =
      (direntOf vol (view vol s.disk) ino).withFileSizeBytes
        (32 * (recs.length + 1) + 32 * (lfnEntryCount name + 1)) := by
    rw [direntOf, ha.record_kept hs₂ hlisted₂ he, hr.record_self, hs.sameRecord hp.dirs he]
    rfl
  have hcluster : (direntOf vol (view vol s'.disk) ino).clusterNumber =
      (direntOf vol (view vol s.disk) ino).clusterNumber := by
    rw [hrec, clusterNumber_withFileSizeBytes]
  -- the directory is left alone until the entries are put at its end
  have hd : DirOf vol (view vol s.disk) (Entry vol (view vol s.disk))
      (direntOf vol (view vol s.disk) ino).clusterNumber := .inr ⟨_, _, he, hdir, rfl⟩
  have hd₁ : DirOf vol v₁ (Entry vol (view vol s.disk))
      (direntOf vol (view vol s.disk) ino).clusterNumber := by
    refine .inr ⟨_, _, he, ?_, ?_⟩
    · rw [hs.sameRecord hp.dirs he]
      exact hdir
    · rw [hs.sameRecord hp.dirs he]
      rfl
  have hsame : SameDir vol (view vol s.disk) v₂ (direntOf vol (view vol s.disk) ino).clusterNumber :=
    (hp.dirs _ hd).trans
      ((hp.sound.frame_dir (hp.sound.parent _ _ he) hr.written).1 _ hd₁ hf.apart)
  have hcount : lfnEntryCount name < 64 := by
    obtain ⟨_, _, _, _, _, -, -, hcount, -⟩ := createInode_calls h
    omega
  refine ⟨longEntries s.createIdx name ++ [r],
    ⟨s.createIdx, r, rfl, hentry.attributes, hentry.firstByte, hentry.zero⟩,
    hwf', hk.entry he, ?_, ?_, ?_, ?_, ?_, ?_⟩
  · rw [hrec, (sameName_withFileSizeBytes _ _).attributes]
    exact hf.attributes
  · obtain ⟨m, hm⟩ := hf.parentEnd
    have hm₁ := hm.congr (hp.dirs _ hparent)
    have hl₁ := ((hp.dirs _ hparent).listed _).mpr he.listed
    have hm₂ := hr.dirEnd hp.sound he hl₁ (hp.sound.parent _ _ he) hm₁
    exact ⟨m, hm₂.congr ((hs₂.frame_dir ha.dirOf ha.written).1 _ (hs₂.parent _ _ he) hf.apart.symm)⟩
  · rw [hcluster]
    exact hf.apart
  · have hnew := ha.holdsAt
    rw [hcluster, List.append_assoc, List.append_assoc]
    refine HoldsAt.append ⟨?_, fun j hj => ?_⟩ (by rw [Nat.zero_add]; exact hnew)
    · exact hnew.inDir.mono (by omega)
    · rw [Nat.zero_add, ha.record_old hj, hsame.record]
      have hold := hf.holdsAt.left.records j hj
      rwa [Nat.zero_add] at hold
  · intro e hmem
    simp only [List.mem_append, List.mem_singleton] at hmem
    rcases hmem with hmem | hmem | rfl
    · exact hf.nonzero e hmem
    · exact longEntries_firstByte hcount hmem
    · rw [hentry.firstByte]
      decide
  · rw [hrec, fileSizeBytes_withFileSizeBytes _ (by omega), List.length_append, List.length_append,
      length_longEntries, List.length_singleton]
    omega

end Filled

/-- `create_inode` for one node of a type and a name after the other, in the directory `ino`. -/
def createAll (vol : Fat16Volume) (ino : Nat) (s : FatState) (files : List (Nat × List UInt8)) :
    Except Halt FatState :=
  files.foldlM (fun s file => createInode vol s ino file.1 file.2) s

/-- How many entries the nodes take. -/
def entriesOf (files : List (Nat × List UInt8)) : Nat :=
  (files.map fun file => lfnEntryCount file.2 + 1).sum

theorem length_groups {files : List (Nat × List UInt8)} {groups : List (List Fat16DirectoryEntry)}
    (h : List.Forall₂ IsGroup files groups) : groups.flatten.length = entriesOf files := by
  induction h with
  | nil => rfl
  | cons hgroup _ ih =>
    rw [List.flatten_cons, List.length_append, hgroup.length, ih, entriesOf, entriesOf,
      List.map_cons, List.sum_cons]

/-- A type and a name that `create_inode` takes. -/
structure IsFile (file : Nat × List UInt8) : Prop where
  type : sIsdir file.1 = true ∨ sIsreg file.1 = true
  name : IsName file.2

/-- **A run of `create_inode`** in a directory fills it with the groups of the new nodes. -/
theorem Filled.createAll (hg : Geometry vol) {s s' : FatState}
    (hf : Filled vol (view vol s.disk) ino recs) {files : List (Nat × List UInt8)}
    (hroom : recs.length + entriesOf files < 2 ^ 16) (h : Fat.createAll vol ino s files = .ok s') :
    ∃ groups, List.Forall₂ IsGroup files groups ∧
      Filled vol (view vol s'.disk) ino (recs ++ groups.flatten) := by
  induction files generalizing s recs with
  | nil =>
    cases h
    exact ⟨[], .nil, by simpa using hf⟩
  | cons file files ih =>
    rw [entriesOf, List.map_cons, List.sum_cons] at hroom
    rw [Fat.createAll, List.foldlM_cons, bind_eq_ok] at h
    obtain ⟨s₁, hcreate, h⟩ := h
    obtain ⟨group, hgroup, hf₁⟩ := hf.create hg (by omega) hcreate
    have hlength : group.length = lfnEntryCount file.2 + 1 := hgroup.length
    have hroom₁ : (recs ++ group).length + entriesOf files < 2 ^ 16 := by
      rw [List.length_append, hlength, entriesOf]
      omega
    obtain ⟨groups, hgroups, hf'⟩ := ih hf₁ hroom₁ h
    refine ⟨group :: groups, .cons hgroup hgroups, ?_⟩
    rw [List.flatten_cons, ← List.append_assoc]
    exact hf'

/-- **A new directory** is filled with nothing. -/
theorem filled_of_create (hg : Geometry vol) {s s' : FatState} {parent newInodeType : Nat}
    {name : List UInt8} (hwf : WellFormed vol (view vol s.disk))
    (hins : Insertable vol (view vol s.disk) (Entry vol (view vol s.disk)) parent)
    (hdir : sIsdir newInodeType = true)
    (h : createInode vol s parent newInodeType name = .ok s')
    (hnode : IsNode (Entry vol (view vol s'.disk)) ino)
    (hnew : ¬ IsNode (Entry vol (view vol s.disk)) ino) :
    Filled vol (view vol s'.disk) ino [] := by
  obtain ⟨v₂, spare, d, n, r, ext, hs, hc, hk, -, ha, hentry, -⟩ := createInode_ok hg hwf.sound
    (complete_entry _ _) (fun _ _ he => he.listed) hins h
  have hlisted : ∀ a b, Entry vol (view vol s.disk) a b → Listed vol v₂ a b :=
    fun a b he => hk.listed a b he he.listed
  have hwf' := (ha.sound hs hlisted).wellFormed (ha.complete hs hlisted hc)
  -- the only entry that was not there before is the new one
  have heq := ((ha.complete hs hlisted hc).entry hnode).resolve_left hnew
  rw [Prod.mk.injEq] at heq
  obtain ⟨hparent, hindex⟩ := heq
  have hrec : direntOf vol (view vol s'.disk) ino = r := by
    rw [direntOf, hparent, hindex, ha.record_new]
  have hr := hentry.isDirectory.mpr hdir
  have hempty := ha.emptyDir_new hs hr
  have hcount : lfnEntryCount name < 64 := by
    obtain ⟨_, _, _, _, _, -, -, hcount, -⟩ := createInode_calls h
    omega
  refine ⟨hwf', hnode, ?_, ⟨n + (longEntries s.createIdx name).length + 1, ?_⟩, ?_, ?_, by simp, ?_⟩
  · have hattr := hentry.attributes
    rw [createFatMode, if_pos hdir, Except.ok.injEq] at hattr
    rw [hrec, hattr]
  · rw [hparent]
    refine ha.dirEnd_after (fun e he => longEntries_firstByte hcount he) ?_
    rw [hentry.firstByte]
    decide
  · rw [hrec, hparent]
    exact ha.clusterNumber_ne hs hr
  · rw [hrec]
    refine ⟨by simpa using hempty.inDir, fun j hj => ?_⟩
    obtain rfl : j = 0 := by simpa using hj
    exact hempty.sentinel
  · rw [hrec]
    exact (hentry.clusterNumber.directory hdir).2.2

/-! ### Listing a directory -/

theorem map_dName_direntsAt (d i : Nat) (files : List (Nat × List UInt8)) :
    (direntsAt d i files).map Dirent.dName = files.map Prod.snd := by
  induction files generalizing i with
  | nil => rfl
  | cons file files ih => rw [direntsAt, List.map_cons, ih, List.map_cons]

/-- The places of the listed entries. -/
theorem mem_direntsAt {d i : Nat} {files : List (Nat × List UInt8)} {dirent : Dirent}
    (h : dirent ∈ direntsAt d i files) :
    ∃ k, i ≤ k ∧ k < i + entriesOf files ∧ dirent.dIno = inodeAt d k := by
  induction files generalizing i with
  | nil => cases h
  | cons file files ih =>
    rw [entriesOf, List.map_cons, List.sum_cons]
    rw [direntsAt, List.mem_cons] at h
    rcases h with rfl | hmem
    · exact ⟨i + lfnEntryCount file.2, by omega, by omega, by dsimp only⟩
    · obtain ⟨k, hk, hlt, heq⟩ := ih hmem
      rw [entriesOf] at hlt
      exact ⟨k, by omega, by omega, heq⟩

/-- **The inode numbers are distinct.** -/
theorem nodup_direntsAt {d i : Nat} {files : List (Nat × List UInt8)} (hd : d < 2 ^ 16)
    (hi : i + entriesOf files ≤ 2 ^ 16) : ((direntsAt d i files).map Dirent.dIno).Nodup := by
  induction files generalizing i with
  | nil => exact List.nodup_nil
  | cons file files ih =>
    rw [entriesOf, List.map_cons, List.sum_cons] at hi
    rw [direntsAt, List.map_cons, List.nodup_cons]
    refine ⟨fun hmem => ?_, ih (by rw [entriesOf]; omega)⟩
    obtain ⟨dirent, hmem, heq⟩ := List.mem_map.mp hmem
    obtain ⟨k, hk, hlt, hino⟩ := mem_direntsAt hmem
    rw [entriesOf] at hlt
    rw [hino] at heq
    dsimp only at heq
    have hindex := getDirentIndexInParent_inodeAt hd (show k < 2 ^ 16 by omega)
    rw [heq, getDirentIndexInParent_inodeAt hd (by omega)] at hindex
    omega

theorem readFatMode_of_createFatMode {mode : Nat} {attributes : UInt8}
    (h : createFatMode mode = .ok attributes) :
    ∃ stMode, readFatMode attributes = .ok stMode ∧ sIsdir stMode = sIsdir mode ∧
      sIsreg stMode = sIsreg mode := by
  rw [createFatMode] at h
  split at h
  · rename_i hdir
    cases h
    refine ⟨sIfdir, by decide, ?_, ?_⟩
    · rw [hdir]
      decide
    · cases hreg : sIsreg mode with
      | false => decide
      | true =>
        rw [not_sIsdir_of_sIsreg hreg] at hdir
        cases hdir
  · rename_i hdir
    split at h
    · rename_i hreg
      cases h
      refine ⟨sIfreg, by decide, ?_, ?_⟩
      · rw [Bool.not_eq_true] at hdir
        rw [hdir]
        decide
      · rw [hreg]
        decide
    · cases h

/-- **`stat_file` reports the types** the nodes were created with. -/
theorem statFile_direntsAt (hg : Geometry vol) {disk : Mem} {d i : Nat}
    (hd : IsDir vol (view vol disk) d) (hd16 : d < 2 ^ 16) {files : List (Nat × List UInt8)}
    {groups : List (List Fat16DirectoryEntry)} (hgroups : List.Forall₂ IsGroup files groups)
    (h : HoldsAt vol (view vol disk) d i groups.flatten)
    (hi : i + groups.flatten.length ≤ 2 ^ 16) :
    List.Forall₂ (fun dirent file => ∃ stat, statFile vol disk dirent.dIno = .ok stat ∧
      sIsdir stat.stMode = sIsdir file.1 ∧ sIsreg stat.stMode = sIsreg file.1)
      (direntsAt d i files) files := by
  induction hgroups generalizing i with
  | nil => exact .nil
  | @cons file group files groups hgroup _ ih =>
    have hlength := hgroup.length
    obtain ⟨createIdx, r, rfl, hattr, -, -⟩ := hgroup
    rw [List.flatten_cons] at h
    rw [List.flatten_cons, List.length_append, hlength] at hi
    have hr := h.left.right.head
    rw [length_longEntries] at hr
    have hrest := h.right
    rw [hlength, ← Nat.add_assoc] at hrest
    refine .cons ?_ (ih hrest (by omega))
    have hparent := getParentClusterNum_inodeAt hd16 (show i + lfnEntryCount file.2 < 2 ^ 16 by omega)
    have hindex := getDirentIndexInParent_inodeAt hd16
      (show i + lfnEntryCount file.2 < 2 ^ 16 by omega)
    have hdirent : HasDirent vol (view vol disk) (inodeAt d (i + lfnEntryCount file.2)) := by
      refine ⟨?_, ?_⟩
      · rw [hparent]
        exact hd
      · rw [hparent, hindex]
        exact hr.2
    obtain ⟨stMode, hmode, hdir, hreg⟩ := readFatMode_of_createFatMode hattr
    rw [statFile_eq hg hdirent, direntOf, hparent, hindex, hr.1, hmode]
    exact ⟨_, rfl, hdir, hreg⟩

theorem InDir.lt_direntFuel {d n : Nat} (h : InDir vol v d (n * 32 + 32)) (hd : IsDir vol v d) :
    n < direntFuel vol := by
  have hdef : vol.numberOfSectorsRootDirectory * vol.bytesPerSector = rootBytes vol := rfl
  rw [direntFuel, hdef]
  unfold InDir at h
  split at h
  · omega
  · have hcap : capacity vol (v.chain d) ≤ 0xFFF7 * bytesPerCluster vol :=
      Nat.mul_le_mul_right _ hd.isChain.length_le
    omega

/-- **The listing of a filled directory.** -/
theorem readDirents_filled (hg : Geometry vol) {disk : Mem} {files : List (Nat × List UInt8)}
    {groups : List (List Fat16DirectoryEntry)}
    (hf : Filled vol (view vol disk) ino groups.flatten)
    (hgroups : List.Forall₂ IsGroup files groups) (hnames : ∀ file ∈ files, IsName file.2)
    (hroom : entriesOf files < 2 ^ 16) {count : Nat} (hcount : files.length ≤ count) :
    readDirents vol disk ino 0 count =
      .ok (direntsAt (direntOf vol (view vol disk) ino).clusterNumber 0 files) := by
  have hs := hf.wellFormed.sound
  have hdirent := hs.hasDirent hf.node
  have hd : IsDir vol (view vol disk) (direntOf vol (view vol disk) ino).clusterNumber :=
    hs.isDir (.inr ⟨_, _, hf.node, hf.isDirectory, rfl⟩)
  have hlength := length_groups hgroups
  have hfuel := hf.dirEnd.inDir.lt_direntFuel hd
  rw [readDirents, if_neg hdirent.isDir.ne_iAmRootDir, readParentDirent_ok hg hdirent]
  refine readDirentsLoop_groups hg hd (clusterNumber_lt _) hgroups hnames hf.holdsAt ?_ hfuel hcount
  omega

end

end Stuos.Fs.Fat
