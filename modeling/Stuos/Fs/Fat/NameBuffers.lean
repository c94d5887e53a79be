import Stuos.Fs.Fat.LongNames

/-!
# The buffers for long names

`create_inode` collects the new entries in an array of 65, `read_dirents` reads the entries of a
long name into one of 20 and its characters into one of 256.  The definitions here say which
indices of these arrays are used, also by a loop that halts half-way.

* `insertIndices`: the indices of `entries_to_insert`.
* `copiedFromDirectory`: how many bytes a read has put into its buffer when it returns or halts.
* `putLongName`: how many characters the loop over the entries has put into the name.
* `name_buffers_iff`: exactly when all of them are in range.
-/

namespace Stuos.Fs.Fat

open Stuos.Lib Fat16DirectoryEntry

/-! ### Which indices are used -/

/-- The indices into `entries_to_insert` that `create_inode` uses, in their order: `seq` counts
down, then there are the entry itself and the zero entry. -/
def insertIndices (name : List UInt8) : List Nat :=
  (List.range (lfnEntryCount name)).reverse ++ [lfnEntryCount name, lfnEntryCount name + 1]

section

variable (vol : Fat16Volume) (disk : Mem)

/-- The bytes that the loop of `read_from_cluster_chain` puts into the buffer.  A turn copies before
it looks for the next cluster. -/
def copiedClusters (required start : Nat) : Nat → Nat → Nat → Nat → Nat
  | _, _, _, 0 => 0
  | 0, _, _, _ + 1 => 0
  | fuel + 1, i, clusterNumber, left + 1 =>
    let n := if required ≤ i then
      min (left + 1) (bytesPerCluster vol - startInCluster required start i) else 0
    n + match readFat vol disk clusterNumber with
      | .error _ => 0
      | .ok next => copiedClusters required start fuel (i + 1) next (left + 1 - n)

/-- The bytes that a read of a directory puts into the buffer. -/
def copiedFromDirectory (clusterNumber offset numBytes : Nat) : Nat :=
  if clusterNumber = parentIsRootDir then
    match checkRootDir vol offset numBytes with
    | .error _ => 0
    | .ok _ => numBytes
  else if isInvalidClusterNum clusterNumber then 0
  else copiedClusters vol disk (offset / bytesPerCluster vol) (offset % bytesPerCluster vol)
    (offset / bytesPerCluster vol + numBytes) 0 clusterNumber numBytes

end

/-- The characters of one entry that are put into the name, and whether the loop gets through. -/
def putChars : List Nat → Nat × Bool
  | [] => (0, true)
  | c :: cs =>
    if c / 256 ≠ 0 then (0, false)
    else if c = 0 then (1, true)
    else ((putChars cs).1 + 1, (putChars cs).2)

/-- The same for the entries of a long name, from the last one to the first. -/
def putLongName : List Fat16DirectoryEntry → Nat × Bool
  | [] => (0, true)
  | e :: es =>
    if (putLongName es).2 = false then putLongName es
    else if ¬ (e.zeroA = 0 ∧ e.zeroB = 0 ∧ e.attributes = fileAttributesLfn) then
      ((putLongName es).1, false)
    else ((putLongName es).1 + (putChars e.unicodeName).1, (putChars e.unicodeName).2)

/-- **A turn of `read_dirents` stays inside its buffers.** -/
structure InBuffers (vol : Fat16Volume) (disk : Mem) (d i : Nat) (ent : Fat16DirectoryEntry)
    (fileName : Mem) : Prop where
  /-- the read of the entries -/
  entries : AtLongName ent fileName →
    copiedFromDirectory vol disk d (i * 32) (ent.sequenceNumber * 32) ≤ maxLongFileNames * 32
  /-- the loop over them -/
  chars : AtLongName ent fileName → ∀ es, readEntries vol disk d i ent.sequenceNumber = .ok es →
    es.length ≤ maxLongFileNames ∧ (putLongName es).1 ≤ maxPathLen
  /-- the loops over the short name -/
  short : (shortName ent).length ≤ maxPathLen
  /-- `strcpy` from the name -/
  string : ∀ name, turnAt vol disk d i ent fileName = .ok (.entry name) →
    ∃ k < maxPathLen, name k = 0

/-! ### The characters -/

theorem putChars_of_ok {cs : List Nat} {chars : List UInt8} (h : readChars cs = .ok chars) :
    putChars cs = (chars.length, true) := by
  induction cs generalizing chars with
  | nil =>
    cases h
    rfl
  | cons c cs ih =>
    rw [readChars, bind_eq_ok] at h
    obtain ⟨_, hc, h⟩ := h
    rw [ensure_eq_ok] at hc
    rw [putChars, if_neg (not_not.mpr hc)]
    split at h
    · rename_i hzero
      cases h
      rw [if_pos hzero]
      rfl
    · rename_i hzero
      rw [bind_eq_ok] at h
      obtain ⟨rest, hrest, h⟩ := h
      cases h
      rw [if_neg hzero, ih hrest]
      rfl

/-- **What is put is what `read_dirents` reads**, where it is not refused. -/
theorem putLongName_of_ok {es : List Fat16DirectoryEntry} {chars : List UInt8}
    (h : readLongName es = .ok chars) : putLongName es = (chars.length, true) := by
  induction es generalizing chars with
  | nil =>
    cases h
    rfl
  | cons e es ih =>
    rw [readLongName] at h
    simp only [bind_eq_ok, ensure_eq_ok] at h
    obtain ⟨front, hfront, -, hzero, -, hattr, part, hpart, h⟩ := h
    cases h
    rw [putLongName, ih hfront, if_neg (by simp), if_neg (not_not.mpr ⟨hzero.1, hzero.2, hattr⟩),
      putChars_of_ok hpart, List.length_append]

theorem readChars_shape {cs : List Nat} {chars : List UInt8} (h : readChars cs = .ok chars) :
    chars.length ≤ cs.length ∧ (cs ≠ [] → chars ≠ []) ∧ (0 ∉ chars → chars.length = cs.length) ∧
      (chars.head? = some 0 → chars.length = 1) := by
  induction cs generalizing chars with
  | nil =>
    cases h
    simp
  | cons c cs ih =>
    rw [readChars, bind_eq_ok] at h
    obtain ⟨_, hc, h⟩ := h
    rw [ensure_eq_ok] at hc
    split at h
    · cases h
      simp
    · rename_i hzero
      rw [bind_eq_ok] at h
      obtain ⟨rest, hrest, h⟩ := h
      cases h
      obtain ⟨hle, -, hall, -⟩ := ih hrest
      have hne : UInt8.ofNat c ≠ 0 := by
        intro h0
        have hnat := congrArg UInt8.toNat h0
        rw [UInt8.toNat_ofNat', UInt8.toNat_zero] at hnat
        omega
      refine ⟨by simpa using hle, fun _ => List.cons_ne_nil _ _, fun hmem => ?_, fun hhead => ?_⟩
      · rw [List.length_cons, List.length_cons, hall fun hin => hmem (List.mem_cons_of_mem _ hin)]
      · rw [List.head?_cons, Option.some.injEq] at hhead
        exact absurd hhead hne

theorem length_unicodeName (e : Fat16DirectoryEntry) : e.unicodeName.length = charsPerLfn := by
  rw [unicodeName, List.length_map]
  rfl

/-- The characters of a long name: all of them, or with a zero; and if the zero comes first, the
entry with it has no other. -/
theorem readLongName_shape {es : List Fat16DirectoryEntry} {chars : List UInt8}
    (h : readLongName es = .ok chars) :
    (es ≠ [] → chars ≠ []) ∧ (0 ∉ chars → chars.length = 13 * es.length) ∧
      (chars.head? = some 0 → chars.length ≤ 13 * (es.length - 1) + 1) := by
  induction es generalizing chars with
  | nil =>
    cases h
    simp
  | cons e es ih =>
    rw [readLongName] at h
    simp only [bind_eq_ok, ensure_eq_ok] at h
    obtain ⟨front, hfront, -, -, -, -, part, hpart, h⟩ := h
    cases h
    obtain ⟨hne, hall, hhead⟩ := ih hfront
    obtain ⟨hle, hpne, hpall, hphead⟩ := readChars_shape hpart
    have hlen : e.unicodeName.length = 13 := length_unicodeName e
    have hpart0 : part ≠ [] := hpne fun h0 => by rw [h0] at hlen; cases hlen
    refine ⟨fun _ => ?_, fun hmem => ?_, fun hh => ?_⟩
    · exact List.append_ne_nil_of_right_ne_nil _ hpart0
    · rw [List.mem_append, not_or] at hmem
      rw [List.length_append, hall hmem.1, hpall hmem.2, hlen, List.length_cons]
      omega
    · rw [List.length_append, List.length_cons]
      cases es with
      | nil =>
        -- the first entry of the loop
        cases hfront
        rw [List.nil_append] at hh
        rw [hphead hh, List.length_nil]
        simp
      | cons e' es' =>
        have hfne := hne (List.cons_ne_nil _ _)
        rw [List.head?_append_of_ne_nil _ hfne] at hh
        have := hhead hh
        rw [List.length_cons] at this
        rw [List.length_cons]
        omega

theorem length_shortName_le (e : Fat16DirectoryEntry) : (shortName e).length ≤ 12 := by
  have hname : ∀ l : List UInt8, (l.takeWhile (· ≠ 32)).length ≤ l.length :=
    fun l => (List.takeWhile_sublist _).length_le
  have h8 := hname ((List.ofFn e.filename).take 8)
  have h3 := hname ((List.ofFn e.filename).drop 8)
  rw [List.length_take, List.length_ofFn] at h8
  rw [List.length_drop, List.length_ofFn] at h3
  rw [shortName, List.length_append, List.length_append, List.length_map, List.length_map]
  split
  · rw [List.length_singleton]
    omega
  · rw [List.length_nil]
    omega

/-! ### The name so far -/

/-- The name ends inside its buffer; and while it is empty, its last bytes are zero. -/
structure NameEnds (fileName : Mem) : Prop where
  zero : ∃ k < maxPathLen, fileName k = 0
  tail : fileName 0 = 0 → ∀ k, 248 ≤ k → fileName k = 0

theorem nameEnds_zero : NameEnds fun _ => 0 := ⟨⟨0, by decide, rfl⟩, fun _ _ _ => rfl⟩

theorem NameEnds.write {fileName : Mem} (h : NameEnds fileName) (hname : fileName 0 = 0)
    {es : List Fat16DirectoryEntry} {chars : List UInt8} (hchars : readLongName es = .ok chars)
    (hes : es.length ≤ maxLongFileNames) (hlen : chars.length ≤ maxPathLen) :
    NameEnds (fileName.write 0 chars) := by
  obtain ⟨-, hall, hhead⟩ := readLongName_shape hchars
  have h20 : es.length ≤ 20 := hes
  have h256 : chars.length ≤ 256 := hlen
  have htail : ∀ k, 248 ≤ k → fileName k = 0 := h.tail hname
  refine ⟨?_, fun h0 k hk => ?_⟩
  · by_cases hmem : 0 ∈ chars
    · obtain ⟨k, hk, hzero⟩ := List.mem_iff_getElem.mp hmem
      refine ⟨k, Nat.lt_of_lt_of_le hk hlen, ?_⟩
      rw [Mem.write_of_mem _ _ (Nat.zero_le k) (by omega), Nat.sub_zero,
        List.getD_eq_getElem _ _ hk, hzero]
    · have hmany := hall hmem
      refine ⟨255, by decide, ?_⟩
      rw [Mem.write_of_ge _ _ (by omega)]
      exact htail 255 (by decide)
  · cases chars with
    | nil =>
      rw [Mem.write_nil]
      exact htail k hk
    | cons c chars =>
      rw [Mem.write_of_mem _ _ (le_refl 0) (by simp), Nat.sub_zero, List.getD_cons_zero] at h0
      have hshort := hhead (by rw [h0]; rfl)
      rw [Mem.write_of_ge _ _ (by omega)]
      exact htail k hk

section

variable {vol : Fat16Volume} {disk : Mem} {d i : Nat} {fileName : Mem}

/-- **The name ends inside its buffer** wherever the cursor comes to. -/
theorem Scan.nameEnds (h : Scan vol disk d i fileName) : NameEnds fileName := by
  induction h with
  | start => exact nameEnds_zero
  | entry _ _ _ => exact nameEnds_zero
  | pass _ hturn ih =>
    rw [direntTurn, bind_eq_ok] at hturn
    obtain ⟨bytes, -, hturn⟩ := hturn
    rcases turnAt_cases hturn with
      ⟨-, h0⟩ | ⟨-, h0⟩ | ⟨hlong, es, chars, hes, hcount, hchars, hlen, h0⟩ | ⟨-, h0⟩
    · cases h0
    · cases h0
      exact ih
    · cases h0
      exact ih.write hlong.2.2.2 hchars (by rw [length_of_readEntries hes]; exact hcount) hlen
    · cases h0

end

/-! ### The bytes of the entries -/

/-- Behind the end of a chain one more cluster is copied before the loop halts. -/
theorem copiedClusters_invalid {vol : Fat16Volume} {disk : Mem} {required start fuel i c n : Nat}
    (hc : isInvalidClusterNum c = true) (hi : required < i) (hn : n ≤ fuel) :
    copiedClusters vol disk required start fuel i c n = min n (bytesPerCluster vol) := by
  cases n with
  | zero => rw [copiedClusters, Nat.zero_min]
  | succ n =>
    cases fuel with
    | zero => exact absurd hn (by omega)
    | succ fuel =>
      have hread : readFat vol disk c = .error .hcf := by
        rw [readFat, ensure_of_not (by rw [hc]; decide), error_bind]
      have hstart : startInCluster required start i = 0 := if_neg (by omega)
      rw [copiedClusters, hread, hstart]
      simp only [if_pos (Nat.le_of_lt hi), Nat.sub_zero, Nat.add_zero]

/-- **The loop copies the bytes of the chain** and then one cluster more. -/
theorem copiedClusters_eq {vol : Fat16Volume} {disk : Mem} (hg : Geometry vol) {required start : Nat}
    (hstart : start < bytesPerCluster vol) (fuel : Nat) : ∀ (i c : Nat) (rest : List Nat) (n : Nat),
    IsChain vol (view vol disk) (c :: rest) → required - i + n ≤ fuel →
    position (bytesPerCluster vol) required start i < capacity vol (c :: rest) →
    copiedClusters vol disk required start fuel i c n =
      min n (capacity vol (c :: rest) + bytesPerCluster vol -
        position (bytesPerCluster vol) required start i) := by
  induction fuel with
  | zero =>
    intro i c rest n _ hfuel _
    obtain rfl : n = 0 := by omega
    rw [copiedClusters, Nat.zero_min]
  | succ fuel ih =>
    intro i c rest n hc hfuel hcap
    cases n with
    | zero => rw [copiedClusters, Nat.zero_min]
    | succ n =>
      rw [capacity_cons] at hcap ⊢
      rw [copiedClusters, readFat_view hg hc.head_inRange]
      simp only
      by_cases hreq : required ≤ i
      · have hs := startInCluster_lt hstart required i
        rw [position_of_le hreq] at hcap ⊢
        simp only [if_pos hreq]
        have hzero : position (bytesPerCluster vol) required start (i + 1) = 0 := by
          rw [position, if_neg (by omega)]
        by_cases hdone : n + 1 ≤ bytesPerCluster vol - startInCluster required start i
        · rw [Nat.min_eq_left hdone, Nat.sub_self, Nat.min_eq_left (by omega)]
          cases fuel <;> rw [copiedClusters, Nat.add_zero]
        rw [Nat.min_eq_right (by omega)]
        rcases hc.fat_head with ⟨rfl, hend⟩ | ⟨d, tl, rfl, hd, -⟩
        · -- the last cluster
          have hinv : isInvalidClusterNum ((view vol disk).fat c) = true := by
            simp only [isEndOfLlNum, decide_eq_true_eq] at hend
            simp only [isInvalidClusterNum, Bool.or_eq_true, decide_eq_true_eq]
            omega
          rw [copiedClusters_invalid hinv (by omega) (by omega), capacity, List.length_nil,
            Nat.zero_mul]
          omega
        · have hpos := hg.bytesPerCluster_pos
          rw [hd, ih (i + 1) d tl _ hc.tail (by omega) (by rw [hzero, capacity_cons]; omega), hzero]
          omega
      · simp only [if_neg hreq]
        obtain ⟨hle, hpos⟩ := position_of_lt (bytesPerCluster vol) start (show i < required by omega)
        rcases hc.fat_head with ⟨rfl, -⟩ | ⟨d, tl, rfl, hd, -⟩
        · rw [capacity, List.length_nil, Nat.zero_mul] at hcap
          omega
        · rw [hd, ih (i + 1) d tl _ hc.tail (by omega) (by rw [hpos]; omega), hpos]
          omega

section

variable {vol : Fat16Volume} {disk : Mem} {d i n : Nat} {fileName : Mem}

/-- The read of `n` entries from index `i` on gets past the end of `long_file_names`: in the root
directory if they are all there, otherwise if the clusters go on that far. -/
def RunsOver (vol : Fat16Volume) (v : View) (d i n : Nat) : Prop :=
  maxLongFileNames < n ∧
    if d = parentIsRootDir then i * 32 + n * 32 < rootBytes vol
    else i * 32 + maxLongFileNames * 32 < capacity vol (v.chain d) + bytesPerCluster vol

variable (hg : Geometry vol) (hd : IsDir vol (view vol disk) d)
include hg hd

/-- **When the read of the entries stays inside its buffer.** -/
theorem copiedFromDirectory_le_iff (hin : InDir vol (view vol disk) d (i * 32 + 32)) (hn : n < 64) :
    copiedFromDirectory vol disk d (i * 32) (n * 32) ≤ maxLongFileNames * 32 ↔
      ¬ RunsOver vol (view vol disk) d i n := by
  have hlt := hin.lt hg hd
  have h20 : maxLongFileNames = 20 := rfl
  rw [copiedFromDirectory, RunsOver, h20]
  by_cases hroot : d = parentIsRootDir
  · rw [if_pos hroot, if_pos hroot, checkRootDir_eq hg (by omega)]
    by_cases hfits : i * 32 + n * 32 < rootBytes vol
    · rw [ensure_of hfits]
      simp only
      omega
    · rw [ensure_of_not hfits]
      simp only
      omega
  · obtain ⟨hvalid, hc⟩ := hd.resolve_left hroot
    rw [InDir, if_neg hroot] at hin
    rw [if_neg hroot, if_neg hroot, if_neg (by rw [hvalid]; decide)]
    rw [chain_eq_cons _ hvalid] at hc hin ⊢
    have hpos := hg.bytesPerCluster_pos
    rw [copiedClusters_eq hg (Nat.mod_lt _ hpos) _ 0 d _ _ hc (by rw [Nat.sub_zero])
      (by rw [position_zero]; omega), position_zero]
    omega

theorem readEntries_records {es : List Fat16DirectoryEntry} (hi : i * 32 + n * 32 < 2 ^ 64)
    (h : readEntries vol disk d i n = .ok es) :
    es = (List.range n).map fun k => record vol (view vol disk) d (i + k) := by
  rcases Nat.eq_zero_or_pos n with rfl | hpos
  · exact List.length_eq_zero_iff.mp (length_of_readEntries h)
  have hread := h
  rw [readEntries, bind_eq_ok] at hread
  obtain ⟨bytes, hread, -⟩ := hread
  have hin := readFromDirectory_inDir hg hd hpos hi hread
  have hholds : HoldsAt vol (view vol disk) d i
      ((List.range n).map fun k => record vol (view vol disk) d (i + k)) := by
    refine ⟨?_, fun j hj => ?_⟩
    · rw [List.length_map, List.length_range, Nat.add_mul]
      exact hin
    · rw [List.getElem_map, List.getElem_range]
  have hok := readEntries_ok hg hd hholds
  rw [List.length_map, List.length_range, h, Except.ok.injEq] at hok
  exact hok

omit hg hd in
theorem insertIndices_iff (name : List UInt8) :
    ((∀ q ∈ insertIndices name, q < 65) ∧ lfnEntryCount name < 2 ^ 6) ↔
      name.length < charsPerLfn * 63 := by
  have hcount : lfnEntryCount name = (name.length + 13) / 13 := rfl
  have h13 : charsPerLfn = 13 := rfl
  rw [hcount, h13]
  constructor
  · rintro ⟨hall, -⟩
    have hlast := hall (lfnEntryCount name + 1) (by simp [insertIndices])
    rw [hcount] at hlast
    omega
  · intro hlen
    refine ⟨fun q hq => ?_, by omega⟩
    simp only [insertIndices, List.mem_append, List.mem_reverse, List.mem_range, List.mem_cons,
      List.not_mem_nil, or_false, hcount] at hq
    omega

/-- The long name that starts at index `i` fits: not too many entries, and their characters. -/
def RunFits (vol : Fat16Volume) (v : View) (d i : Nat) : Prop :=
  ¬ RunsOver vol v d i (record vol v d i).sequenceNumber ∧
    (InDir vol v d (i * 32 + (record vol v d i).sequenceNumber * 32) →
      (putLongName ((List.range (record vol v d i).sequenceNumber).map fun k =>
        record vol v d (i + k))).1 ≤ maxPathLen)

theorem RunFits.chars_le (hfits : RunFits vol (view vol disk) d i)
    (hin : InDir vol (view vol disk) d (i * 32 + 32)) {es : List Fat16DirectoryEntry}
    (hes : readEntries vol disk d i (record vol (view vol disk) d i).sequenceNumber = .ok es) :
    es.length ≤ maxLongFileNames ∧ (putLongName es).1 ≤ maxPathLen := by
  obtain ⟨hover, hchars⟩ := hfits
  have hlt := hin.lt hg hd
  have hseq : (record vol (view vol disk) d i).sequenceNumber < 64 := Nat.mod_lt _ (by decide)
  have hrecords := readEntries_records hg hd (by omega) hes
  rcases Nat.eq_zero_or_pos (record vol (view vol disk) d i).sequenceNumber with h0 | hpos
  · rw [h0, List.range_zero, List.map_nil] at hrecords
    subst hrecords
    exact ⟨Nat.zero_le _, Nat.zero_le _⟩
  have hread := hes
  rw [readEntries, bind_eq_ok] at hread
  obtain ⟨bytes, hread, -⟩ := hread
  have hrun := readFromDirectory_inDir hg hd hpos (by omega) hread
  rw [length_of_readEntries hes]
  refine ⟨Nat.le_of_not_lt fun hmany => hover ⟨hmany, ?_⟩, hrecords ▸ hchars hrun⟩
  have hmany' : 20 < (record vol (view vol disk) d i).sequenceNumber := hmany
  have h20 : maxLongFileNames = 20 := rfl
  rw [InDir] at hrun
  split
  · rename_i hroot
    rwa [if_pos hroot] at hrun
  · rename_i hroot
    rw [if_neg hroot] at hrun
    have hpos := hg.bytesPerCluster_pos
    omega

omit hg hd in
/-- The name of an entry ends in its buffer, whether it was put there by this entry or before. -/
theorem Scan.turn_ends (hscan : Scan vol disk d i fileName) {name : Mem}
    (hturn : turnAt vol disk d i (record vol (view vol disk) d i) fileName = .ok (.entry name)) :
    ∃ k < maxPathLen, name k = 0 := by
  have hends := hscan.nameEnds
  rcases turnAt_cases hturn with ⟨-, h0⟩ | ⟨-, h0⟩ | ⟨-, es, chars, -, -, -, -, h0⟩ | ⟨-, h0⟩
  · cases h0
  · cases h0
  · cases h0
  · cases h0
    split
    · rename_i hname
      have hshort := length_shortName_le (record vol (view vol disk) d i)
      refine ⟨255, by decide, ?_⟩
      rw [Mem.write_of_ge _ _ (by omega)]
      exact hends.tail hname 255 (by decide)
    · exact hends.zero

theorem inBuffers_iff (hscan : Scan vol disk d i fileName)
    (hin : InDir vol (view vol disk) d (i * 32 + 32)) :
    InBuffers vol disk d i (record vol (view vol disk) d i) fileName ↔
      (AtLongName (record vol (view vol disk) d i) fileName → RunFits vol (view vol disk) d i) := by
  have hlt := hin.lt hg hd
  have hseq : (record vol (view vol disk) d i).sequenceNumber < 64 := Nat.mod_lt _ (by decide)
  have hcopied := copiedFromDirectory_le_iff hg hd hin hseq
  constructor
  · intro h hlong
    refine ⟨hcopied.mp (h.entries hlong), fun hrun => ?_⟩
    have hread := readFromDirectory_ok hg hd hrun
    have hes : ∃ es, readEntries vol disk d i (record vol (view vol disk) d i).sequenceNumber =
        .ok es := by
      rw [readEntries, hread]
      exact ⟨_, rfl⟩
    obtain ⟨es, hes⟩ := hes
    rw [← readEntries_records hg hd (by omega) hes]
    exact (h.chars hlong es hes).2
  · intro h
    refine ⟨fun hlong => hcopied.mpr (h hlong).1, fun hlong es hes => ?_, ?_, fun name hturn => ?_⟩
    · exact (h hlong).chars_le hg hd hin hes
    · have := length_shortName_le (record vol (view vol disk) d i)
      rw [maxPathLen]
      omega
    · exact hscan.turn_ends hturn

/-- **When the buffers for long names are not overrun**: `create_inode` has room for names of fewer
than `13 * 63` characters, and `read_dirents` for long names of 20 entries with 256 characters. -/
theorem name_buffers_iff :
    (∀ name : List UInt8, name.length < charsPerLfn * 65 →
      (((∀ q ∈ insertIndices name, q < 65) ∧ lfnEntryCount name < 2 ^ 6) ↔
        name.length < charsPerLfn * 63)) ∧
    ((∀ i fileName, Scan vol disk d i fileName → InDir vol (view vol disk) d (i * 32 + 32) →
        InBuffers vol disk d i (record vol (view vol disk) d i) fileName) ↔
      ∀ i fileName, Scan vol disk d i fileName → InDir vol (view vol disk) d (i * 32 + 32) →
        AtLongName (record vol (view vol disk) d i) fileName →
        RunFits vol (view vol disk) d i) := by
  refine ⟨fun name _ => insertIndices_iff name, ?_⟩
  constructor
  · exact fun h i fileName hscan hin => (inBuffers_iff hg hd hscan hin).mp (h i fileName hscan hin)
  · exact fun h i fileName hscan hin => (inBuffers_iff hg hd hscan hin).mpr (h i fileName hscan hin)

end

/-- The root directory with the files `A` and `B` has no long names. -/
theorem name_buffers_two_files :
    IsDir twoFats (view twoFats twoFatsDisk.disk) 0 ∧
      ∀ i fileName, Scan twoFats twoFatsDisk.disk 0 i fileName →
        InDir twoFats (view twoFats twoFatsDisk.disk) 0 (i * 32 + 32) →
        InBuffers twoFats twoFatsDisk.disk 0 i (record twoFats (view twoFats twoFatsDisk.disk) 0 i)
          fileName := by
  have hplain : ∀ i < 15, (record twoFats (view twoFats twoFatsDisk.disk) 0 i).attributes ≠
      fileAttributesLfn := by
    decide +kernel
  refine ⟨twoFats_root_isDir _,
    (name_buffers_iff twoFats_geometry (twoFats_root_isDir _)).2.mpr ?_⟩
  rintro i fileName - hin ⟨-, -, hlfn, -⟩
  have hi : i * 32 + 32 < 512 := hin
  exact absurd hlfn (hplain i (by omega))

/-- A directory in the clusters 2 and 3 with a long name of 21 entries. -/
def longRunDisk : Mem :=
  Mem.write (Mem.write (fun _ => 0) 512 [0xF8, 0xFF, 0xFF, 0xFF, 0x03, 0x00, 0xF8, 0xFF]) 2048
    ((List.range 21).flatMap fun k =>
      (lfnEntry (21 - k) false 0 (List.replicate 13 97)).toBytes)

/-- A name of 819 characters is accepted, and the zero entry is put behind the array; and the long
name of 21 entries is read over the end of its array. -/
theorem name_buffers_overrun :
    (List.replicate 819 (97 : UInt8)).length < charsPerLfn * 65 ∧
      (∃ q ∈ insertIndices (List.replicate 819 97), ¬ q < 65) ∧
      IsDir twoFats (view twoFats longRunDisk) 2 ∧
      Scan twoFats longRunDisk 2 0 (fun _ => 0) ∧
      ¬ InBuffers twoFats longRunDisk 2 0 (record twoFats (view twoFats longRunDisk) 2 0)
        (fun _ => 0) := by
  have hchain : IsChain twoFats (view twoFats longRunDisk) [2, 3] := by
    refine ⟨by decide, ?_, ?_, trivial⟩ <;> decide +kernel
  have hlong : AtLongName (record twoFats (view twoFats longRunDisk) 2 0) (fun _ => 0) :=
    ⟨by decide +kernel, by decide +kernel, by decide +kernel, rfl⟩
  refine ⟨by rw [List.length_replicate]; decide, ⟨65, ?_, by decide⟩, .inr ⟨by decide, ?_⟩, .start,
    fun h => ?_⟩
  · have hcount : lfnEntryCount (List.replicate 819 97) = 64 := by
      rw [lfnEntryCount, List.length_replicate]
      rfl
    rw [insertIndices, hcount]
    simp
  · rw [hchain.chain_eq]
    exact hchain
  · exact absurd (h.entries hlong) (by decide +kernel)

end Stuos.Fs.Fat
